import Neos.Procfs.Listing
import Neos.Procfs.Names

/-!
# Enumerating the processes

Calling `scheduler_process_list` until it returns 0 goes once through the
process table, in order.  It compares the id with the number of processes before
it adds one, so it also looks at the slot behind the last one, and returns its
id when that slot happens to be marked.

The process file system lists its root with these ids and searches them when a
name is opened.  A name is read as a number up to its first other character, so
next to every printed name there are others that open the same process.
-/

namespace Neos.Procfs

open Vfs Scheduler

variable {table : ProcessTable}

/-! ## One call -/

/-- The slots the loop of `scheduler_process_list` looks at. -/
def loopSlots (s : ProcessTable) : ℕ → ℕ → List ℕ
  | 0, _ => []
  | fuel + 1, i =>
      if i ≤ s.processCount then
        i :: if (s.generalProcessTable i).live then [] else loopSlots s fuel (i + 1)
      else []

/-- The slots a call of `scheduler_process_list` looks at. -/
def slotsRead (s : ProcessTable) (pid : ℕ) : List ℕ := loopSlots s (s.processCount + 1) pid

/-- The slots from one on, with the one behind the last. -/
def slotsFrom (s : ProcessTable) (i : ℕ) : List ℕ := List.range' i (s.processCount + 1 - i)

/-- The marked slots from one on. -/
def markedFrom (s : ProcessTable) (i : ℕ) : List ℕ :=
  (slotsFrom s i).filter fun slot => (s.generalProcessTable slot).live

theorem slotsFrom_of_le {i : ℕ} (h : i ≤ table.processCount) :
    slotsFrom table i = i :: slotsFrom table (i + 1) := by
  have hcount : table.processCount + 1 - i = (table.processCount + 1 - (i + 1)) + 1 := by omega
  rw [slotsFrom, hcount, List.range'_succ, slotsFrom]

theorem slotsFrom_of_lt {i : ℕ} (h : table.processCount < i) : slotsFrom table i = [] := by
  have hcount : table.processCount + 1 - i = 0 := by omega
  rw [slotsFrom, hcount, List.range'_zero]

/-- A call returns the id of the first marked slot, having looked at the slots
up to it; or there is none, and it has looked at all of them. -/
inductive CallFinds (s : ProcessTable) (i : ℕ) : Option ℕ → List ℕ → Prop
  | found {slot : ℕ} {slots : List ℕ} (hle : i ≤ slot) (hcount : slot ≤ s.processCount)
      (hmarked : markedFrom s i = slot :: markedFrom s (slot + 1))
      (hslots : slots ++ slotsFrom s (slot + 1) = slotsFrom s i) :
      CallFinds s i (some (slot + 1)) slots
  | nothing {slots : List ℕ} (hmarked : markedFrom s i = []) (hslots : slots = slotsFrom s i) :
      CallFinds s i none slots

theorem processListLoop_finds (s : ProcessTable) :
    ∀ (fuel i : ℕ), s.processCount + 1 - i ≤ fuel →
      CallFinds s i (processListLoop s fuel i) (loopSlots s fuel i)
  | 0, i, h => by
      have hnone : slotsFrom s i = [] := slotsFrom_of_lt (by omega)
      exact .nothing (by rw [markedFrom, hnone]; rfl) hnone.symm
  | fuel + 1, i, h => by
      rw [processListLoop, loopSlots]
      by_cases hle : i ≤ s.processCount
      · rw [if_pos hle, if_pos hle]
        cases hlive : (s.generalProcessTable i).live with
        | true =>
            refine .found (Nat.le_refl i) hle ?_ (slotsFrom_of_le hle).symm
            rw [markedFrom, slotsFrom_of_le hle, List.filter_cons_of_pos (by simpa using hlive),
              markedFrom]
        | false =>
            have hskip : markedFrom s i = markedFrom s (i + 1) := by
              rw [markedFrom, slotsFrom_of_le hle, List.filter_cons_of_neg (by simp [hlive]),
                markedFrom]
            have hrec := processListLoop_finds s fuel (i + 1) (by omega)
            simp only [Bool.false_eq_true, if_false]
            cases hcall : processListLoop s fuel (i + 1) with
            | none =>
                rw [hcall] at hrec
                obtain ⟨⟩ | ⟨hmarked, hslots⟩ := hrec
                refine .nothing (hskip.trans hmarked) ?_
                rw [hslots, slotsFrom_of_le hle]
            | some next =>
                rw [hcall] at hrec
                obtain ⟨hlow, hhigh, hmarked, hslots⟩ := hrec
                refine .found (Nat.le_of_succ_le hlow) hhigh (hskip.trans hmarked) ?_
                rw [List.cons_append, hslots, slotsFrom_of_le hle]
      · have hnone : slotsFrom s i = [] := slotsFrom_of_lt (Nat.lt_of_not_le hle)
        rw [if_neg hle, if_neg hle]
        exact .nothing (by rw [markedFrom, hnone]; rfl) hnone.symm

theorem schedulerProcessList_finds (s : ProcessTable) (pid : ℕ) :
    CallFinds s pid (schedulerProcessList s pid) (slotsRead s pid) :=
  processListLoop_finds s _ _ (Nat.sub_le _ _)

/-! ## The whole enumeration -/

/-- Calls from an id on until one returns 0: the ids returned and the slots
looked at. -/
inductive Enumerates (s : ProcessTable) : ℕ → List ℕ → List ℕ → Prop
  | done {pid : ℕ} (h : schedulerProcessList s pid = none) : Enumerates s pid [] (slotsRead s pid)
  | next {pid next : ℕ} {pids slots : List ℕ} (h : schedulerProcessList s pid = some next)
      (hrest : Enumerates s next pids slots) :
      Enumerates s pid (next :: pids) (slotsRead s pid ++ slots)

/-- The calls come to an end, return the ids of the marked slots in order, and
look at every slot once. -/
theorem enumerates_marked (s : ProcessTable) :
    ∀ (n pid : ℕ), s.processCount + 1 - pid = n →
      Enumerates s pid ((markedFrom s pid).map (· + 1)) (slotsFrom s pid) := by
  intro n
  induction n using Nat.strong_induction_on with
  | _ n ih =>
      intro pid hn
      have hcall := schedulerProcessList_finds s pid
      cases hnext : schedulerProcessList s pid with
      | none =>
          rw [hnext] at hcall
          obtain ⟨⟩ | ⟨hmarked, hslots⟩ := hcall
          rw [hmarked, ← hslots]
          exact .done hnext
      | some next =>
          rw [hnext] at hcall
          obtain ⟨hlow, hhigh, hmarked, hslots⟩ := hcall
          rw [hmarked, List.map_cons, ← hslots]
          exact .next hnext (ih _ (by omega) _ rfl)

theorem Enumerates.unique {s : ProcessTable} {pid : ℕ} {pids slots : List ℕ}
    (h : Enumerates s pid pids slots) :
    ∀ {pids' slots' : List ℕ}, Enumerates s pid pids' slots' → pids = pids' ∧ slots = slots' := by
  induction h with
  | done hnone =>
      intro pids' slots' h'
      cases h' with
      | done => exact ⟨rfl, rfl⟩
      | next hsome =>
          rw [hnone] at hsome
          cases hsome
  | next hsome _ ih =>
      intro pids' slots' h'
      cases h' with
      | done hnone =>
          rw [hnone] at hsome
          cases hsome
      | next hsome' hrest' =>
          obtain rfl := Option.some.inj (hsome.symm.trans hsome')
          obtain ⟨rfl, rfl⟩ := ih hrest'
          exact ⟨rfl, rfl⟩

/-- The ids of the processes in a table: those of the marked slots below the
number of processes. -/
def livePids (s : ProcessTable) : List ℕ :=
  ((List.range s.processCount).filter fun slot => (s.generalProcessTable slot).live).map (· + 1)

/-- Called from 0 until it returns 0, `scheduler_process_list` yields the ids of
the live processes in increasing order, and stays below the number of
processes. -/
def EnumeratesLive (s : ProcessTable) : Prop :=
  ∃ pids slots, Enumerates s 0 pids slots ∧ pids = livePids s ∧
    ∀ slot ∈ slots, slot < s.processCount

theorem markedFrom_zero (s : ProcessTable) :
    (markedFrom s 0).map (· + 1) =
      livePids s ++
        if (s.generalProcessTable s.processCount).live then [s.processCount + 1] else [] := by
  rw [markedFrom, slotsFrom, Nat.sub_zero, ← List.range_eq_range', List.range_succ,
    List.filter_append, List.map_append, livePids]
  congr 1
  cases hlive : (s.generalProcessTable s.processCount).live with
  | true => rw [List.filter_cons_of_pos (by simpa using hlive)]; rfl
  | false => rw [List.filter_cons_of_neg (by simp [hlive])]; rfl

/-- Every enumeration leaves the table: it looks at the slot behind the last
process.  It yields the ids of the live processes just when that slot is not
marked. -/
theorem schedulerProcessList_leaves_table (s : ProcessTable) :
    ¬ EnumeratesLive s ∧
      ∃ pids slots, Enumerates s 0 pids slots ∧ s.processCount ∈ slots ∧
        (pids = livePids s ↔ (s.generalProcessTable s.processCount).live = false) := by
  have hrun := enumerates_marked s _ 0 rfl
  have hbehind : s.processCount ∈ slotsFrom s 0 := by
    rw [slotsFrom, List.mem_range'_1]
    omega
  refine ⟨?_, _, _, hrun, hbehind, ?_⟩
  · rintro ⟨pids, slots, hrun', -, hbelow⟩
    obtain ⟨-, rfl⟩ := hrun.unique hrun'
    exact Nat.lt_irrefl _ (hbelow _ hbehind)
  · rw [markedFrom_zero]
    cases hlive : (s.generalProcessTable s.processCount).live with
    | true => simp
    | false => simp

/-- The table `scheduler_init` leaves: with no process in it, the slot at its
start is looked at. -/
theorem schedulerProcessList_leaves_empty_table :
    ¬ EnumeratesLive (schedulerInit
      (fun _ => ⟨false, 0, 0, .runnable, 0, 0, 0, vfsRoot, vfsRoot, 0, 0⟩)
      (fun _ _ => vfsRoot) (fun _ _ => false)) := by
  rintro ⟨pids, slots, hrun, -, hbelow⟩
  obtain ⟨-, rfl⟩ := (enumerates_marked _ _ 0 rfl).unique hrun
  exact absurd (hbelow 0 (by decide)) (Nat.not_lt_zero 0)

/-! ## The ids the process file system works with -/

theorem pidsFrom_eq (s : ProcessTable) :
    ∀ (fuel pid : ℕ), s.processCount + 1 - pid ≤ fuel →
      pidsFrom s fuel pid = (markedFrom s pid).map (· + 1)
  | 0, pid, h => by
      have hnone : slotsFrom s pid = [] := slotsFrom_of_lt (by omega)
      rw [pidsFrom, markedFrom, hnone]
      rfl
  | fuel + 1, pid, h => by
      have hcall := schedulerProcessList_finds s pid
      rw [pidsFrom]
      cases hnext : schedulerProcessList s pid with
      | none =>
          rw [hnext] at hcall
          obtain ⟨⟩ | ⟨hmarked, -⟩ := hcall
          rw [hmarked]
          rfl
      | some next =>
          rw [hnext] at hcall
          obtain ⟨hlow, hhigh, hmarked, -⟩ := hcall
          rw [hmarked, List.map_cons, ← pidsFrom_eq s fuel _ (by omega)]

theorem mem_pids {pid : ℕ} :
    pid ∈ pids table ↔
      ∃ slot ≤ table.processCount, (table.generalProcessTable slot).live = true ∧ slot + 1 = pid := by
  rw [pids, pidsFrom_eq table _ 0 (Nat.sub_le _ _), List.mem_map]
  simp only [markedFrom, slotsFrom, List.mem_filter, List.mem_range'_1]
  constructor
  · rintro ⟨slot, ⟨⟨-, hslot⟩, hlive⟩, rfl⟩
    exact ⟨slot, by omega, hlive, rfl⟩
  · rintro ⟨slot, hslot, hlive, rfl⟩
    exact ⟨slot, ⟨⟨Nat.zero_le _, by omega⟩, hlive⟩, rfl⟩

/-! ## Printed names and accepted names -/

/-- The names `procfs_list` prints for the processes in the root. -/
def printedNames (table : ProcessTable) : List CString :=
  ((rootEntries table).drop 3).map (·.name)

theorem numbered_names (entries : List EntryData) :
    (numbered entries).map (·.name) = entries.map (·.1) := by
  rw [numbered, List.map_map, ← List.zipIdx_map_fst 0 (entries.map (·.1)), List.zipIdx_map,
    List.map_map]
  rfl

theorem printedNames_eq (table : ProcessTable) :
    printedNames table = (pids table).map (uintToStr · 16 10) := by
  rw [printedNames, List.map_drop, rootEntries, numbered_names, List.map_append, List.map_map]
  rfl

/-- In the root `procfs_open` accepts, next to `self`, the printed names, opens
for each the process whose id it is, and rejects every other name. -/
def OpensPrinted (table : ProcessTable) : Prop :=
  ∀ (state : ProcState) (flags : ℕ) (name : CString),
    state.node = .root → 0 ∉ name → name ≠ selfName →
      (∃ pid ∈ pids table, name = uintToStr pid 16 10 ∧ name ∈ printedNames table ∧
          openState table state name flags = (0, ⟨pid, .proc, 0⟩)) ∨
        (name ∉ printedNames table ∧ openState table state name flags = (-linuxEnoent, state))

/-- Reading a number stops at a character that is no digit. -/
theorem strToUint_append {c : UInt8} (hc : digitValue c = none) (base : ℕ) (str : CString) :
    strToUint (str ++ [c]) base = strToUint str base := by
  have hloop : ∀ (str : CString) (result : ℕ),
      strToUintLoop base (str ++ [c]) result = strToUintLoop base str result := by
    intro str
    induction str with
    | nil =>
        intro result
        simp only [List.nil_append, strToUintLoop, hc]
    | cons d rest ih =>
        intro result
        rw [List.cons_append, strToUintLoop, strToUintLoop]
        cases digitValue d with
        | none => rfl
        | some value =>
            dsimp only
            rw [ih]
  exact hloop str 0

/-- The accepted names are the printed ones only while there is no process. -/
theorem procfsOpen_printed_iff (table : ProcessTable) :
    OpensPrinted table ↔
      ∀ slot ≤ table.processCount, (table.generalProcessTable slot).live = false := by
  constructor
  · intro hopens slot hslot
    by_contra hlive
    have hpid : slot + 1 ∈ pids table :=
      mem_pids.mpr ⟨slot, hslot, by simpa using hlive, rfl⟩
    have hprinted : uintToStr (slot + 1) 16 10 ∈ printedNames table := by
      rw [printedNames_eq]
      exact List.mem_map_of_mem hpid
    have hdigits := (uintToStr_digits (slot + 1)).1
    have hforeign : ∀ c : UInt8, (∀ value < 10, c ≠ digit value) →
        c ∉ uintToStr (slot + 1) 16 10 := by
      intro c hc hmem
      obtain ⟨value, hvalue, heq⟩ := hdigits c hmem
      exact hc value hvalue heq
    have hself : uintToStr (slot + 1) 16 10 ≠ selfName := fun heq =>
      hforeign 115 (by decide) (by rw [heq]; decide)
    -- the printed name followed by another character
    set other := uintToStr (slot + 1) 16 10 ++ [120] with hother
    have hotherSelf : other ≠ selfName := by
      intro heq
      have hlast := congrArg List.getLast? heq
      rw [hother, List.getLast?_concat] at hlast
      exact absurd hlast (by decide)
    have hread : pidOf other = pidOf (uintToStr (slot + 1) 16 10) := by
      rw [pidOf, hother, strToUint_append (by decide), pidOf]
    have hzero : 0 ∉ uintToStr (slot + 1) 16 10 := hforeign 0 (by decide)
    have hotherZero : 0 ∉ other := by
      rw [hother, List.mem_append, List.mem_singleton]
      rintro (h | h)
      · exact hzero h
      · exact absurd h (by decide)
    have hunprinted : other ∉ printedNames table := by
      rw [printedNames_eq]
      intro hmem
      obtain ⟨pid, -, heq⟩ := List.mem_map.mp hmem
      have hx : (120 : UInt8) ∈ uintToStr pid 16 10 := by
        rw [heq, hother]
        exact List.mem_append_right _ (List.mem_singleton.mpr rfl)
      obtain ⟨value, hvalue, hdigit⟩ := (uintToStr_digits pid).1 _ hx
      exact (show ∀ value < 10, (120 : UInt8) ≠ digit value by decide) value hvalue hdigit
    rcases hopens fresh 0 _ rfl hzero hself with ⟨pid, -, -, -, hopen⟩ | ⟨hnot, -⟩
    · rcases hopens fresh 0 other rfl hotherZero hotherSelf with ⟨_, -, -, hmem, -⟩ | ⟨-, hrejected⟩
      · exact hunprinted hmem
      · rw [openState_root rfl hotherSelf, hread] at hrejected
        rw [openState_root rfl hself] at hopen
        split at hopen
        · next hlisted =>
            rw [if_pos hlisted] at hrejected
            exact absurd (congrArg Prod.fst hrejected) (show (0 : ℤ) ≠ -linuxEnoent by decide)
        · exact absurd (congrArg Prod.fst hopen) (show -linuxEnoent ≠ (0 : ℤ) by decide)
    · exact hnot hprinted
  · intro hnone state flags name hroot _ hself
    have hpids : pids table = [] := by
      rw [List.eq_nil_iff_forall_not_mem]
      intro pid hpid
      obtain ⟨slot, hslot, hlive, -⟩ := mem_pids.mp hpid
      rw [hnone slot hslot] at hlive
      cases hlive
    refine Or.inr ⟨by rw [printedNames_eq, hpids]; exact List.not_mem_nil, ?_⟩
    have hunlisted : ¬ Listed table (pidOf name) := by
      rw [Listed, hpids]
      exact List.not_mem_nil
    rw [openState_root hroot hself, if_neg hunlisted]

/-- With one process, whose id is 1, the name `01` opens it. -/
theorem procfsOpen_accepts_leading_zero :
    ¬ OpensPrinted ⟨fun slot => ⟨slot == 0, 0, 0, .runnable, 0, 0, 0, vfsRoot, vfsRoot, 0, 0⟩, 1, 2,
      0, fun _ _ => vfsRoot, fun _ _ => false, []⟩ := by
  intro hopens
  rcases hopens fresh 0 [48, 49] rfl (by decide) (by decide) with ⟨_, -, -, hmem, -⟩ | ⟨-, hopen⟩
  · exact absurd hmem (by decide)
  · exact absurd hopen (by decide)

end Neos.Procfs
