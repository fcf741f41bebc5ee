import Neos.Kernel.CLib
import Neos.Scheduler.Model
import Mathlib.Data.Finset.Card
import Mathlib.Data.Finset.Max

/-!
# Context switches

`scheduler_context_switch` looks for the next live slot behind the running one
and compares it with `process_count` afterwards.  It takes turns as long as
there is a live entry behind the running one; when it should wrap around it
reads slots behind the last entry.
-/

namespace Neos.Scheduler

open Vfs

/-! ## The machine -/

/-- The process table and the memory in front of it, in which slot `-1 - k` is
`below k`. -/
structure Machine where
  table : ProcessTable
  below : ℕ → ProcessDescriptor

/-- The slot at an index, which may be negative. -/
def Machine.slot (a : Machine) (i : ℤ) : ProcessDescriptor :=
  if 0 ≤ i then a.table.generalProcessTable i.toNat else a.below (-1 - i).toNat

/-- `process_running`. -/
def Machine.running (a : Machine) : ℤ := a.table.processRunning

/-- Store a stack pointer into a slot. -/
def Machine.setStack (a : Machine) (i : ℤ) (stack : ℕ) : Machine :=
  if 0 ≤ i then
    { a with table := a.table.setSlot i.toNat { a.slot i with stack := stack } }
  else
    { a with below := fun k => if k = (-1 - i).toNat then { a.slot i with stack := stack }
                               else a.below k }

/-- The increment of an `int`. -/
def nextInt (i : ℤ) : ℤ := toInt (toWord (i + 1))

/-- The loop of `scheduler_context_switch`: the first slot from `running` on that
is marked live, and the slots that were read. -/
def scanLive (a : Machine) : ℕ → ℤ → Option (ℤ × List ℤ)
  | 0, _ => none
  | fuel + 1, running =>
      if (a.slot running).live = false then
        (scanLive a fuel (nextInt running)).map fun found => (found.1, running :: found.2)
      else some (running, [running])

/-- What a switch leaves behind: the stack pointer it returns, the machine and
the slots that were read. -/
structure Switched where
  stack : ℕ
  machine : Machine
  reads : List ℤ

/-- `scheduler_context_switch`. -/
def schedulerContextSwitch (fuel : ℕ) (a : Machine) (oldStack : ℕ) : Option Switched := do
  if a.table.processCount = 0 then some ⟨oldStack, a, []⟩
  else
    let a := a.setStack a.running oldStack
    let found ← scanLive a fuel (nextInt a.running)
    let running := if found.1 ≥ a.table.processCount then 0 else found.1
    some
      { stack := (a.slot running).stack
        machine := { a with table := { a.table with processRunning := running } }
        reads := found.2 ++ [running] }

/-- A switch that comes to an end. -/
def Switches (a : Machine) (oldStack : ℕ) (b : Switched) : Prop :=
  ∃ fuel, schedulerContextSwitch fuel a oldStack = some b

/-! ## Taking turns -/

/-- The entries of the table that are live. -/
def Machine.liveEntries (a : Machine) : Finset ℤ :=
  {i ∈ (Finset.range a.table.processCount).image Int.ofNat | (a.slot i).live = true}

/-- A switch takes turns: it selects the next live entry in cyclic order and
reads entries of the table only. -/
structure TakesTurn (a : Machine) (b : Switched) : Prop where
  selects : b.machine.running ∈ a.liveEntries
  next : (a.running < b.machine.running ∧
      ∀ i ∈ a.liveEntries, a.running < i → b.machine.running ≤ i) ∨
    ((∀ i ∈ a.liveEntries, i ≤ a.running) ∧ ∀ i ∈ a.liveEntries, b.machine.running ≤ i)
  reads : ∀ i ∈ b.reads, i < a.table.processCount

/-- Consecutive switches that take turns, with the entries they select. -/
def TakeTurns : Machine → List ℕ → List ℤ → Prop
  | _, [], selected => selected = []
  | a, oldStack :: oldStacks, selected =>
      ∃ b rest, Switches a oldStack b ∧ TakesTurn a b ∧ selected = b.machine.running :: rest ∧
        TakeTurns b.machine oldStacks rest

/-- Consecutive switches are fair: they take turns, and as many of them as there
are live entries select each of them exactly once. -/
def Fair (a : Machine) (oldStacks : List ℕ) : Prop :=
  ∃ selected, TakeTurns a oldStacks selected ∧
    ∀ window, window <:+: selected → window.length = a.liveEntries.card →
      window.Nodup ∧ ∀ i, i ∈ window ↔ i ∈ a.liveEntries

/-- The live entries a scan can reach without leaving the table. -/
def Machine.ahead (a : Machine) : Finset ℤ :=
  {i ∈ a.liveEntries | nextInt a.running ≤ i}

/-- No slot in front of the table gets in the way of a scan. -/
def Machine.ClearBelow (a : Machine) : Prop :=
  ∀ i, nextInt a.running ≤ i → i < 0 → (a.slot i).live = false

/-- The counters are values of type `int`. -/
structure Machine.InRange (a : Machine) : Prop where
  count : (a.table.processCount : ℤ) < 2 ^ 31
  lower : -2 ^ 31 ≤ a.running
  upper : a.running < 2 ^ 31

section

variable {a : Machine} {b : Switched} {i : ℤ} {oldStack : ℕ}

theorem nextInt_of_lt (h₁ : -2 ^ 31 ≤ i + 1) (h₂ : i + 1 < 2 ^ 31) : nextInt i = i + 1 := by
  unfold nextInt toInt toWord
  split <;> omega

theorem nextInt_max : nextInt (2 ^ 31 - 1) = -2 ^ 31 := by decide

/-- The next index is one up, except behind the greatest `int`. -/
theorem Machine.InRange.next (h : a.InRange) :
    nextInt a.running = a.running + 1 ∨
      a.running = 2 ^ 31 - 1 ∧ nextInt a.running = -2 ^ 31 := by
  have := h.lower
  have := h.upper
  by_cases hmax : a.running = 2 ^ 31 - 1
  · right
    rw [hmax]
    exact ⟨rfl, nextInt_max⟩
  · left
    exact nextInt_of_lt (by omega) (by omega)

theorem mem_liveEntries :
    i ∈ a.liveEntries ↔ (0 ≤ i ∧ i < a.table.processCount) ∧ (a.slot i).live = true := by
  have hrange : i ∈ (Finset.range a.table.processCount).image Int.ofNat ↔
      0 ≤ i ∧ i < a.table.processCount := by
    rw [Finset.mem_image]
    constructor
    · rintro ⟨k, hk, rfl⟩
      have hlt := Finset.mem_range.mp hk
      rw [Int.ofNat_eq_natCast]
      omega
    · rintro ⟨hlo, hhi⟩
      exact ⟨i.toNat, Finset.mem_range.mpr (by omega), Int.toNat_of_nonneg hlo⟩
  rw [Machine.liveEntries, Finset.mem_filter, hrange]

theorem mem_ahead : i ∈ a.ahead ↔ i ∈ a.liveEntries ∧ nextInt a.running ≤ i := by
  rw [Machine.ahead, Finset.mem_filter]

/-! ## What a switch changes -/

theorem slot_setStack (a : Machine) (i j : ℤ) (stack : ℕ) :
    (a.setStack i stack).slot j =
      if j = i then { a.slot i with stack := stack } else a.slot j := by
  unfold Machine.setStack
  by_cases hi : 0 ≤ i
  · rw [if_pos hi]
    by_cases hj : 0 ≤ j
    · by_cases heq : j = i
      · simp [Machine.slot, ProcessTable.setSlot, heq, hi]
      · have hne : ¬ j.toNat = i.toNat := by omega
        simp only [Machine.slot, ProcessTable.setSlot, hj, if_true, heq, if_false, hne]
    · have hne : ¬ j = i := by omega
      simp only [Machine.slot, hj, if_false, hne]
  · rw [if_neg hi]
    by_cases hj : 0 ≤ j
    · have hne : ¬ j = i := by omega
      simp only [Machine.slot, hj, if_true, hne, if_false]
    · by_cases heq : j = i
      · simp [Machine.slot, heq, hi]
      · have hne : ¬ (-1 - j).toNat = (-1 - i).toNat := by omega
        simp only [Machine.slot, hj, if_false, heq, hne]

@[simp] theorem setStack_running (a : Machine) (i : ℤ) (stack : ℕ) :
    (a.setStack i stack).running = a.running := by
  unfold Machine.setStack
  split <;> rfl

@[simp] theorem setStack_processCount (a : Machine) (i : ℤ) (stack : ℕ) :
    (a.setStack i stack).table.processCount = a.table.processCount := by
  unfold Machine.setStack
  split <;> rfl

@[simp] theorem setStack_live (a : Machine) (i j : ℤ) (stack : ℕ) :
    ((a.setStack i stack).slot j).live = (a.slot j).live := by
  rw [slot_setStack]
  split
  · next h => rw [h]
  · rfl

/-- The slots a scan sees are those before the stack pointer was stored. -/
theorem scanLive_setStack (a : Machine) (i : ℤ) (stack : ℕ) :
    ∀ (fuel : ℕ) (running : ℤ),
      scanLive (a.setStack i stack) fuel running = scanLive a fuel running
  | 0, _ => rfl
  | fuel + 1, running => by
      rw [scanLive, scanLive, setStack_live, scanLive_setStack a i stack fuel]

/-- The outcome of a switch whose scan stopped at a slot: the old stack pointer
is stored in the running slot, and a scan that went too far wraps around. -/
def stopAt (a : Machine) (oldStack : ℕ) (found : ℤ × List ℤ) : Switched :=
  let stored := a.setStack a.running oldStack
  let running := if found.1 ≥ a.table.processCount then 0 else found.1
  { stack := (stored.slot running).stack
    machine := { stored with table := { stored.table with processRunning := running } }
    reads := found.2 ++ [running] }

theorem switches_iff (hcount : a.table.processCount ≠ 0) :
    Switches a oldStack b ↔
      ∃ fuel found, scanLive a fuel (nextInt a.running) = some found ∧
        b = stopAt a oldStack found := by
  have hstop : ∀ fuel, schedulerContextSwitch fuel a oldStack =
      (scanLive a fuel (nextInt a.running)).map (stopAt a oldStack) := by
    intro fuel
    unfold schedulerContextSwitch stopAt
    rw [if_neg hcount]
    dsimp only
    rw [scanLive_setStack, setStack_running, setStack_processCount]
    cases scanLive a fuel (nextInt a.running) with
    | none => rfl
    | some found => rfl
  unfold Switches
  simp only [hstop, Option.map_eq_some_iff, eq_comm (b := b)]

@[simp] theorem stopAt_running (a : Machine) (oldStack : ℕ) (found : ℤ × List ℤ) :
    (stopAt a oldStack found).machine.running =
      if found.1 ≥ a.table.processCount then 0 else found.1 := rfl

theorem Switches.slot_live (hcount : a.table.processCount ≠ 0) (h : Switches a oldStack b)
    (j : ℤ) : (b.machine.slot j).live = (a.slot j).live := by
  obtain ⟨fuel, found, -, rfl⟩ := (switches_iff hcount).mp h
  exact setStack_live a a.running j oldStack

theorem Switches.processCount (hcount : a.table.processCount ≠ 0) (h : Switches a oldStack b) :
    b.machine.table.processCount = a.table.processCount := by
  obtain ⟨fuel, found, -, rfl⟩ := (switches_iff hcount).mp h
  exact setStack_processCount a a.running oldStack

theorem Switches.liveEntries (hcount : a.table.processCount ≠ 0) (h : Switches a oldStack b) :
    b.machine.liveEntries = a.liveEntries := by
  unfold Machine.liveEntries
  rw [h.processCount hcount]
  simp only [h.slot_live hcount]

/-! ## Scans -/

/-- A scan that reads only entries of the table stops at the first live slot. -/
theorem scanLive_spec {count : ℕ} (hcount : (count : ℤ) < 2 ^ 31) {found : ℤ × List ℤ} :
    ∀ {fuel : ℕ} {start : ℤ}, -2 ^ 31 ≤ start → scanLive a fuel start = some found →
      (∀ j ∈ found.2, j < count) →
        start ≤ found.1 ∧ found.1 < count ∧ (a.slot found.1).live = true ∧
          ∀ j, start ≤ j → j < found.1 → (a.slot j).live = false
  | 0, _, _, h, _ => by cases h
  | fuel + 1, start, hstart, h, hreads => by
      rw [scanLive] at h
      split at h
      · next hdead =>
          obtain ⟨later, hlater, rfl⟩ := Option.map_eq_some_iff.mp h
          have hlt := hreads start List.mem_cons_self
          rw [nextInt_of_lt (by omega) (by omega)] at hlater
          obtain ⟨h₁, h₂, h₃, h₄⟩ := scanLive_spec hcount (by omega) hlater
            fun j hj => hreads j (List.mem_cons_of_mem _ hj)
          refine ⟨by dsimp only; omega, h₂, h₃, ?_⟩
          intro j hj hlt'
          rcases Int.lt_or_eq_of_le hj with hj | rfl
          · exact h₄ j (by omega) hlt'
          · exact hdead
      · next hlive =>
          rw [Option.some_inj] at h
          subst h
          refine ⟨le_rfl, hreads start List.mem_cons_self, by simpa using hlive, ?_⟩
          intro j h₁ h₂
          dsimp only at h₂
          omega

/-- A scan reaches a live slot that only dead slots precede. -/
theorem scanLive_reaches {stop : ℤ} (hstop : stop < 2 ^ 31) (hlive : (a.slot stop).live = true) :
    ∀ (n : ℕ) {start : ℤ}, -2 ^ 31 ≤ start → start + n = stop →
      (∀ j, start ≤ j → j < stop → (a.slot j).live = false) →
        ∃ reads, scanLive a (n + 1) start = some (stop, reads) ∧ ∀ j ∈ reads, j ≤ stop
  | 0, start, _, heq, _ => by
      have : start = stop := by omega
      subst this
      refine ⟨[start], ?_, by simp⟩
      rw [scanLive, if_neg (by simp [hlive])]
  | n + 1, start, hstart, heq, hdead => by
      obtain ⟨reads, hscan, hreads⟩ := scanLive_reaches hstop hlive n
        (show -2 ^ 31 ≤ start + 1 by omega) (by omega) fun j hj => hdead j (by omega)
      refine ⟨start :: reads, ?_, ?_⟩
      · rw [scanLive, if_pos (hdead start le_rfl (by omega)),
          nextInt_of_lt (by omega) (by omega), hscan]
        rfl
      · intro j hj
        rcases List.mem_cons.mp hj with rfl | hj
        · omega
        · exact hreads j hj

/-! ## Single switches -/

/-- A switch that takes its turn selects the first entry ahead. -/
theorem ahead_of_takesTurn (hrange : a.InRange) (h : Switches a oldStack b)
    (hturn : TakesTurn a b) :
    a.ClearBelow ∧ b.machine.running ∈ a.ahead ∧ ∀ i ∈ a.ahead, b.machine.running ≤ i := by
  obtain ⟨⟨hnonneg, hlt⟩, hlive⟩ := mem_liveEntries.mp hturn.selects
  have hcount : a.table.processCount ≠ 0 := by omega
  obtain ⟨fuel, found, hscan, rfl⟩ := (switches_iff hcount).mp h
  have hstart : -2 ^ 31 ≤ nextInt a.running := by
    have := hrange.lower
    rcases hrange.next with heq | ⟨-, heq⟩
    · omega
    · omega
  obtain ⟨h₁, h₂, h₃, h₄⟩ := scanLive_spec hrange.count hstart hscan
    fun j hj => hturn.reads j (List.mem_append_left _ hj)
  have hrunning : (stopAt a oldStack found).machine.running = found.1 := by
    rw [stopAt_running, if_neg (by omega)]
  rw [hrunning] at hnonneg ⊢
  refine ⟨fun i hi hneg => h₄ i hi (by omega), ?_, ?_⟩
  · exact mem_ahead.mpr ⟨mem_liveEntries.mpr ⟨⟨hnonneg, h₂⟩, h₃⟩, h₁⟩
  · intro i hi
    obtain ⟨hi, hle⟩ := mem_ahead.mp hi
    by_contra hlt'
    have := h₄ i hle (by omega)
    rw [(mem_liveEntries.mp hi).2] at this
    cases this

/-- With an entry ahead and no obstacle in front of the table, a switch takes its
turn and selects the first entry ahead. -/
theorem takesTurn_of_ahead (hrange : a.InRange) (hclear : a.ClearBelow) (oldStack : ℕ)
    (hmem : i ∈ a.ahead) (hmin : ∀ j ∈ a.ahead, i ≤ j) :
    ∃ b, Switches a oldStack b ∧ TakesTurn a b ∧ b.machine.running = i := by
  obtain ⟨hi, hle⟩ := mem_ahead.mp hmem
  obtain ⟨⟨hnonneg, hlt⟩, hlive⟩ := mem_liveEntries.mp hi
  have := hrange.count
  have hstart : -2 ^ 31 ≤ nextInt a.running := by
    have := hrange.lower
    rcases hrange.next with heq | ⟨-, heq⟩
    · omega
    · omega
  have hdead : ∀ j, nextInt a.running ≤ j → j < i → (a.slot j).live = false := by
    intro j hj hji
    by_cases hneg : j < 0
    · exact hclear j hj hneg
    · by_contra hlive'
      have hj' : j ∈ a.ahead := mem_ahead.mpr
        ⟨mem_liveEntries.mpr ⟨⟨by omega, by omega⟩, by simpa using hlive'⟩, hj⟩
      have := hmin j hj'
      omega
  obtain ⟨reads, hscan, hreads⟩ := scanLive_reaches (by omega) hlive
    (i - nextInt a.running).toNat hstart (by omega) hdead
  have hcount : a.table.processCount ≠ 0 := by omega
  have hrunning : (stopAt a oldStack (i, reads)).machine.running = i := by
    rw [stopAt_running, if_neg (by dsimp only; omega)]
  refine ⟨stopAt a oldStack (i, reads), (switches_iff hcount).mpr ⟨_, _, hscan, rfl⟩, ?_,
    hrunning⟩
  constructor
  · rwa [hrunning]
  · rw [hrunning]
    have hfirst : ∀ j ∈ a.liveEntries, nextInt a.running ≤ j → i ≤ j :=
      fun j hj hle' => hmin j (mem_ahead.mpr ⟨hj, hle'⟩)
    rcases hrange.next with heq | ⟨hmax, heq⟩
    · left
      refine ⟨by omega, ?_⟩
      intro j hj hlt'
      exact hfirst j hj (by omega)
    · right
      constructor
      · intro j hj
        have := (mem_liveEntries.mp hj).1
        omega
      · intro j hj
        have := (mem_liveEntries.mp hj).1
        exact hfirst j hj (by omega)
  · intro j hj
    rcases List.mem_append.mp hj with hj | hj
    · have := hreads j hj
      omega
    · have hj' : j = i := by
        rw [List.mem_singleton] at hj
        exact hj.trans hrunning
      omega

/-- After a switch to an entry of the table, the entries ahead are those that
were ahead, without the one that was selected. -/
theorem ahead_after (hrange : a.InRange) (h : Switches a oldStack b)
    (hmem : b.machine.running ∈ a.ahead) (hmin : ∀ i ∈ a.ahead, b.machine.running ≤ i) :
    b.machine.InRange ∧ b.machine.ClearBelow ∧
      b.machine.ahead = a.ahead.erase b.machine.running := by
  obtain ⟨hi, hle⟩ := mem_ahead.mp hmem
  obtain ⟨⟨hnonneg, hlt⟩, -⟩ := mem_liveEntries.mp hi
  have hcount : a.table.processCount ≠ 0 := by omega
  have := hrange.count
  have hnext : nextInt b.machine.running = b.machine.running + 1 :=
    nextInt_of_lt (by omega) (by omega)
  refine ⟨⟨?_, by omega, by omega⟩, ?_, ?_⟩
  · rw [h.processCount hcount]
    exact hrange.count
  · intro j hj hneg
    omega
  · ext j
    rw [Finset.mem_erase, mem_ahead, mem_ahead, h.liveEntries hcount, hnext]
    constructor
    · rintro ⟨hj, hlt'⟩
      exact ⟨by omega, hj, by omega⟩
    · rintro ⟨hne, hj, hle'⟩
      have := hmin j (mem_ahead.mpr ⟨hj, hle'⟩)
      exact ⟨hj, by omega⟩

/-! ## Runs of switches -/

/-- As long as entries are ahead, switches take turns and select them in
increasing order. -/
theorem takeTurns_of_ahead :
    ∀ (oldStacks : List ℕ) {a : Machine}, a.InRange → a.ClearBelow →
      oldStacks.length ≤ a.ahead.card →
        ∃ selected, TakeTurns a oldStacks selected ∧ selected.Pairwise (· < ·) ∧
          ∀ i ∈ selected, i ∈ a.ahead
  | [], _, _, _, _ => ⟨[], rfl, List.Pairwise.nil, by simp⟩
  | oldStack :: oldStacks, a, hrange, hclear, hcard => by
      have hne : a.ahead.Nonempty := by
        apply Finset.card_pos.mp
        rw [List.length_cons] at hcard
        omega
      have hmem := Finset.min'_mem a.ahead hne
      have hmin : ∀ j ∈ a.ahead, a.ahead.min' hne ≤ j := fun j hj => Finset.min'_le _ j hj
      generalize a.ahead.min' hne = i at hmem hmin
      obtain ⟨b, hswitch, hturn, rfl⟩ := takesTurn_of_ahead hrange hclear oldStack hmem hmin
      obtain ⟨hrange', hclear', hahead⟩ := ahead_after hrange hswitch hmem hmin
      have hcard' : oldStacks.length ≤ b.machine.ahead.card := by
        rw [hahead, Finset.card_erase_of_mem hmem]
        rw [List.length_cons] at hcard
        omega
      obtain ⟨rest, hrest, hsorted, hin⟩ :=
        takeTurns_of_ahead oldStacks hrange' hclear' hcard'
      refine ⟨b.machine.running :: rest, ⟨b, rest, hswitch, hturn, rfl, hrest⟩, ?_, ?_⟩
      · refine List.pairwise_cons.mpr ⟨?_, hsorted⟩
        intro j hj
        have hj' := hin j hj
        rw [hahead, Finset.mem_erase] at hj'
        have := hmin j hj'.2
        omega
      · intro j hj
        rcases List.mem_cons.mp hj with rfl | hj
        · exact hmem
        · have hj' := hin j hj
          rw [hahead] at hj'
          exact Finset.mem_of_mem_erase hj'

/-- Every switch that takes its turn uses up one entry ahead. -/
theorem ahead_of_takeTurns :
    ∀ (oldStacks : List ℕ) {a : Machine} {selected : List ℤ}, a.InRange →
      TakeTurns a oldStacks selected →
        oldStacks = [] ∨ (a.ClearBelow ∧ oldStacks.length ≤ a.ahead.card)
  | [], _, _, _, _ => Or.inl rfl
  | oldStack :: oldStacks, a, selected, hrange, h => by
      obtain ⟨b, rest, hswitch, hturn, -, hrest⟩ := h
      obtain ⟨hclear, hmem, hmin⟩ := ahead_of_takesTurn hrange hswitch hturn
      obtain ⟨hrange', -, hahead⟩ := ahead_after hrange hswitch hmem hmin
      refine Or.inr ⟨hclear, ?_⟩
      have hpos := Finset.card_pos.mpr ⟨_, hmem⟩
      rw [List.length_cons]
      rcases ahead_of_takeTurns oldStacks hrange' hrest with rfl | ⟨-, hcard⟩
      · simpa using hpos
      · rw [hahead, Finset.card_erase_of_mem hmem] at hcard
        omega

/-- Consecutive switches are fair exactly when there is a live entry ahead for
each of them and no slot in front of the table looks live on the way. -/
theorem fair_iff (hrange : a.InRange) (oldStacks : List ℕ) :
    Fair a oldStacks ↔
      oldStacks = [] ∨ (a.ClearBelow ∧ oldStacks.length ≤ a.ahead.card) := by
  constructor
  · rintro ⟨selected, hturns, -⟩
    exact ahead_of_takeTurns oldStacks hrange hturns
  · intro h
    obtain ⟨selected, hturns, hsorted, hin⟩ : ∃ selected, TakeTurns a oldStacks selected ∧
        selected.Pairwise (· < ·) ∧ ∀ i ∈ selected, i ∈ a.ahead := by
      rcases h with rfl | ⟨hclear, hcard⟩
      · exact ⟨[], rfl, List.Pairwise.nil, by simp⟩
      · exact takeTurns_of_ahead oldStacks hrange hclear hcard
    refine ⟨selected, hturns, ?_⟩
    intro window hwindow hlength
    have hnodup : window.Nodup :=
      (hsorted.sublist hwindow.sublist).imp fun hlt => ne_of_lt hlt
    have hsubset : window.toFinset ⊆ a.liveEntries := by
      intro i hi
      exact (mem_ahead.mp (hin i (hwindow.subset (List.mem_toFinset.mp hi)))).1
    have heq := Finset.eq_of_subset_of_card_le hsubset
      (by rw [List.toFinset_card_of_nodup hnodup, hlength])
    exact ⟨hnodup, fun i => by rw [← heq, List.mem_toFinset]⟩

end

/-! ## Two processes -/

/-- A table of two live processes followed by slots that look dead. -/
def twoProcesses : Machine where
  table :=
    { generalProcessTable := fun i =>
        ⟨i < 2, 100 + i, 0, .runnable, -1, 1, 1, vfsRoot, vfsRoot, 0, 1⟩
      processCount := 2
      processTableSize := 2
      processRunning := -1
      filesAt := fun _ _ => vfsRoot
      fileExistsAt := fun _ _ => false
      freed := [] }
  below := fun _ => ⟨false, 0, 0, .runnable, -1, 1, 1, vfsRoot, vfsRoot, 0, 1⟩

theorem twoProcesses_inRange : twoProcesses.InRange := ⟨by decide, by decide, by decide⟩

/-- Two switches reach both processes. -/
theorem fair_iff_twoProcesses : Fair twoProcesses [7, 8] := by
  rw [fair_iff twoProcesses_inRange]
  refine Or.inr ⟨?_, by decide +kernel⟩
  intro i _ hneg
  unfold Machine.slot
  rw [if_neg (by omega)]
  rfl

/-- The third of three switches should return to the first process, but reads
slots behind the table. -/
theorem third_switch_not_fair : ¬ Fair twoProcesses [7, 8, 9] := by
  rintro ⟨selected, h, -⟩
  rcases ahead_of_takeTurns _ twoProcesses_inRange h with h | ⟨-, h⟩
  · cases h
  · revert h
    decide +kernel

end Neos.Scheduler
