import Neos.Syscall.Ownership
import Neos.Scheduler.Stacks

/-!
# What a killed process leaves behind

A process is created, calls the file system, and is killed, while other
processes do the same.  `scheduler_kill_process` frees the image and the
descriptor arrays through the pointers in the slot and closes the working
directory.  It does not close the descriptors, and after the first
`scheduler_fremove` the slot has lost one of the pointers.
-/

namespace Neos.Syscall

open Vfs Scheduler Ownership Relation

/-! ## Runs -/

variable {W : Type}

/-- What can happen while a process lives. -/
inductive Occurrence
  | call (process : ProcessDescriptor) (request : Request)
  | create (entry : NewEntry) (heap : HeapAnswer)
  | kill (pid : ℤ)

/-- The system after an occurrence. -/
def Occurrence.after (m : Mounts W) (a : System W) : Occurrence → Option (System W)
  | .call process request => perform m process a request
  | .create entry heap => some (schedulerNewEntry a.1 entry heap, a.2)
  | .kill pid => some (schedulerKillProcess m a.1 pid a.2).2

/-- The process that makes a call. -/
def Occurrence.caller (a : System W) : Occurrence → Option ℤ
  | .call _ _ => some (schedulerGetCurrentPid a.1)
  | .create _ _ => none
  | .kill _ => none

/-- The system, and the driver states that would be allocated if a certain
process had never been created. -/
structure Ledger (W : Type) where
  system : System W
  others : Finset ℕ

/-- Something happens while the process in a slot lives.  What its own calls
allocate and free is not the others'. -/
def Proceeds (m : Mounts W) (blocks : StateStore W) (slot : ℕ) (a b : Ledger W) : Prop :=
  ∃ e : Occurrence, e ≠ .kill (slot + 1) ∧ e.after m a.system = some b.system ∧
    b.others =
      if e.caller a.system = some ((slot : ℤ) + 1) then a.others
      else (a.others ∪ ((blocks b.system.2).live \ (blocks a.system.2).live)) \
        ((blocks a.system.2).live \ (blocks b.system.2).live)

/-! ## What a kill should do -/

/-- The driver states that the working directory and the descriptors of a
process refer to. -/
def heldStates (s : ProcessTable) (slot : ℕ) : List ℕ :=
  (holds s (.cwd slot)).toList ++
    (List.range maxFilesPerProcess).filterMap fun i => holds s (.file slot i)

/-- Everything the process owns is released exactly once: the image and the two
arrays it was created with, and the states it refers to.  What stays allocated
is what would be if it had never been created. -/
structure Releases (blocks : StateStore W) (slot : ℕ) (entry : NewEntry) (heap : HeapAnswer)
    (a : Ledger W) (b : System W) : Prop where
  heap : ∃ freed, b.1.freed = a.system.1.freed ++ freed ∧
    freed.Perm [entry.processMemory, heap.files, heap.fileExists]
  states : blocks b.2 = (blocks a.system.2).releaseAll (heldStates a.system.1 slot)
  once : (blocks b.2).badReleases = (blocks a.system.2).badReleases
  rest : (blocks b.2).live = a.others

/-- A process that closed no descriptor and refers to a state only with its
working directory, and the only state allocated besides the others'. -/
structure Unburdened (blocks : StateStore W) (slot : ℕ) (heap : HeapAnswer) (a : Ledger W) :
    Prop where
  fileExists : (a.system.1.generalProcessTable slot).fileExists = heap.fileExists
  files : ∀ i, holds a.system.1 (.file slot i) = none
  cwd : ∀ x ∈ holds a.system.1 (.cwd slot), x ∈ (blocks a.system.2).live
  rest : (blocks a.system.2).live \ (holds a.system.1 (.cwd slot)).toFinset = a.others

/-! ## The life of a process -/

section Life

variable {m : Mounts W} {s s' : ProcessTable} {slot : ℕ}

/-- The slots still hold the same processes, with the same images and arrays of
references. -/
structure SameProcesses (s s' : ProcessTable) : Prop where
  processCount : s'.processCount = s.processCount
  live : ∀ i, (s'.generalProcessTable i).live = (s.generalProcessTable i).live
  processMemory : ∀ i, (s'.generalProcessTable i).processMemory =
    (s.generalProcessTable i).processMemory
  files : ∀ i, (s'.generalProcessTable i).files = (s.generalProcessTable i).files

theorem sameProcesses_refl (s : ProcessTable) : SameProcesses s s :=
  ⟨rfl, fun _ => rfl, fun _ => rfl, fun _ => rfl⟩

theorem sameProcesses_setSlot {p : ProcessDescriptor}
    (hlive : p.live = (s.generalProcessTable slot).live)
    (hmemory : p.processMemory = (s.generalProcessTable slot).processMemory)
    (hfiles : p.files = (s.generalProcessTable slot).files) :
    SameProcesses s (s.setSlot slot p) := by
  refine ⟨rfl, fun i => ?_, fun i => ?_, fun i => ?_⟩
  all_goals
    by_cases hi : i = slot
    · simp [ProcessTable.setSlot, hi, hlive, hmemory, hfiles]
    · simp [ProcessTable.setSlot, hi]

theorem sameProcesses_fput (s : ProcessTable) (pid : ℤ) (v : VRef) :
    SameProcesses s (schedulerFput s pid v).2 := by
  unfold schedulerFput
  split
  · exact sameProcesses_refl s
  · dsimp only
    split
    · exact sameProcesses_refl s
    · exact ⟨rfl, fun _ => rfl, fun _ => rfl, fun _ => rfl⟩

theorem sameProcesses_chdir (s : ProcessTable) (pid : ℤ) (v : VRef) :
    SameProcesses s (schedulerChdir s pid v).2 := by
  unfold schedulerChdir
  split
  · exact sameProcesses_refl s
  · exact sameProcesses_setSlot rfl rfl rfl

theorem sameProcesses_fremove (s : ProcessTable) (pid fd : ℤ) :
    SameProcesses s (schedulerFremove s pid fd).2 := by
  unfold schedulerFremove
  split
  · exact sameProcesses_refl s
  · dsimp only
    split
    · exact sameProcesses_setSlot rfl rfl rfl
    · exact sameProcesses_refl s

theorem sameProcesses_fdOpen {parent : VRef} {filename : CString} {flags : ℕ} {w : W}
    {r : Return W} (h : fdOpen m s parent filename flags w = some r) :
    SameProcesses s r.table := by
  obtain ⟨o, -, -, ⟨-, -, htable⟩ | ⟨-, htable, -⟩⟩ := fdOpen_cases h
  · rw [htable]
    exact sameProcesses_refl s
  · rw [htable]
    exact sameProcesses_fput ..

theorem sameProcesses_sysClose (s : ProcessTable) (fd : ℕ) (w : W) :
    SameProcesses s (sysClose m s fd w).table := by
  unfold sysClose
  split
  · exact sameProcesses_refl s
  · dsimp only
    split
    · exact sameProcesses_refl s
    · -- what stands in the array of references does not matter
      obtain ⟨hcount, hlive, hmemory, hfiles⟩ := sameProcesses_fremove
        { s with filesAt := _ } (schedulerGetCurrentPid s) (toInt fd)
      exact ⟨hcount, hlive, hmemory, hfiles⟩

theorem sameProcesses_sysChdir {process : ProcessDescriptor} {path : CString} {w : W}
    {r : Return W} (h : sysChdir m s process path w = some r) : SameProcesses s r.table := by
  obtain ⟨o, -, h⟩ := Option.bind_eq_some_iff.mp h
  split at h
  · cases h
    exact sameProcesses_refl s
  · cases h
    exact sameProcesses_chdir ..

/-- A call changes no slot but for the working directory and the pointer to the
array of marks. -/
theorem sameProcesses_perform {process : ProcessDescriptor} {a b : System W} {request : Request}
    (h : perform m process a request = some b) : SameProcesses a.1 b.1 := by
  have hunchanged : ∀ {x : Option (ℤ × W)},
      x.map (fun r => (a.1, r.2)) = some b → SameProcesses a.1 b.1 := by
    intro x hx
    obtain ⟨r, -, rfl⟩ := Option.map_eq_some_iff.mp hx
    exact sameProcesses_refl a.1
  cases request with
  | «open» filename flags =>
      obtain ⟨r, hr, rfl⟩ := Option.map_eq_some_iff.mp h
      exact sameProcesses_fdOpen hr
  | openat fd filename flags =>
      obtain ⟨r, hr, rfl⟩ := Option.map_eq_some_iff.mp h
      unfold sysOpenat at hr
      split at hr
      · cases hr
        exact sameProcesses_refl a.1
      · exact sameProcesses_fdOpen hr
  | close fd =>
      cases h
      exact sameProcesses_sysClose ..
  | chdir path =>
      obtain ⟨r, hr, rfl⟩ := Option.map_eq_some_iff.mp h
      exact sameProcesses_sysChdir hr
  | stat filename flags => exact hunchanged h
  | unlink pathname => exact hunchanged h
  | rmdir pathname => exact hunchanged h
  | unlinkat fd pathname flag => exact hunchanged h
  | switch processRunning =>
      cases h
      exact ⟨rfl, fun _ => rfl, fun _ => rfl, fun _ => rfl⟩

/-- The process in a slot has the image and the array of references it was
created with. -/
structure Inhabits (slot : ℕ) (entry : NewEntry) (heap : HeapAnswer) (s : ProcessTable) : Prop where
  live : LiveSlot s slot
  processMemory : (s.generalProcessTable slot).processMemory = entry.processMemory
  files : (s.generalProcessTable slot).files = heap.files

variable {entry : NewEntry} {heap : HeapAnswer}

theorem inhabits_new (s : ProcessTable) (entry : NewEntry) (heap : HeapAnswer) :
    Inhabits s.nextSlot entry heap (schedulerNewEntry s entry heap) := by
  have hslot := schedulerNewEntry_slot s entry heap (Or.inr (rfl : s.nextSlot = s.nextSlot))
  rw [if_pos rfl] at hslot
  have hcount := schedulerNewEntry_processCount s entry heap
  have hlt : s.nextSlot < (schedulerNewEntry s entry heap).processCount := by
    rw [hcount]
    rcases nextSlot_spec s with heq | ⟨hlt, -⟩
    · rw [if_pos heq]
      omega
    · rw [if_neg (by omega)]
      omega
  refine ⟨⟨hlt, ?_⟩, ?_, ?_⟩
  · rw [hslot]
    rfl
  · rw [hslot]
    rfl
  · rw [hslot]
    rfl

theorem Inhabits.same (h : Inhabits slot entry heap s) (hsame : SameProcesses s s') :
    Inhabits slot entry heap s' := by
  obtain ⟨⟨hlt, hlive⟩, hmemory, hfiles⟩ := h
  refine ⟨⟨?_, ?_⟩, ?_, ?_⟩
  · rw [hsame.processCount]
    exact hlt
  · rw [hsame.live, hlive]
  · rw [hsame.processMemory, hmemory]
  · rw [hsame.files, hfiles]

/-- Another creation takes another slot. -/
theorem Inhabits.create (h : Inhabits slot entry heap s) (entry' : NewEntry)
    (heap' : HeapAnswer) : Inhabits slot entry heap (schedulerNewEntry s entry' heap') := by
  obtain ⟨⟨hlt, hlive⟩, hmemory, hfiles⟩ := h
  have hne : slot ≠ s.nextSlot := by
    rintro rfl
    rcases nextSlot_spec s with heq | ⟨-, hdead⟩
    · omega
    · rw [hlive] at hdead
      cases hdead
  have hslot := schedulerNewEntry_slot s entry' heap' (Or.inl hlt)
  rw [if_neg hne] at hslot
  refine ⟨⟨?_, ?_⟩, ?_, ?_⟩
  · rw [schedulerNewEntry_processCount]
    split <;> omega
  · rw [hslot, hlive]
  · rw [hslot, hmemory]
  · rw [hslot, hfiles]

/-- Another kill frees another slot. -/
theorem Inhabits.kill (h : Inhabits slot entry heap s) {pid : ℤ} (hpid : pid ≠ slot + 1) (w : W) :
    Inhabits slot entry heap (schedulerKillProcess m s pid w).2.1 := by
  obtain ⟨⟨hlt, hlive⟩, hmemory, hfiles⟩ := h
  have hother : schedulerPidInvalid s pid = true ∨ slot ≠ (pid - 1).toNat := by
    by_cases hvalid : schedulerPidInvalid s pid = true
    · exact Or.inl hvalid
    · have := (pid_valid (by simpa using hvalid)).1
      exact Or.inr (by omega)
  have hslot := schedulerKillProcess_slot m s pid w hother
  refine ⟨⟨?_, ?_⟩, ?_, ?_⟩
  · rw [(schedulerKillProcess_sizes m s pid w).1]
    exact hlt
  · rw [hslot, hlive]
  · rw [hslot, hmemory]
  · rw [hslot, hfiles]

variable {blocks : StateStore W}

theorem Inhabits.proceeds {a b : Ledger W} (h : Inhabits slot entry heap a.system.1)
    (hstep : Proceeds m blocks slot a b) : Inhabits slot entry heap b.system.1 := by
  obtain ⟨e, hne, hafter, -⟩ := hstep
  cases e with
  | call process request => exact h.same (sameProcesses_perform hafter)
  | create entry' heap' =>
      rw [← Option.some_inj.mp hafter]
      exact h.create entry' heap'
  | kill pid =>
      rw [← Option.some_inj.mp hafter]
      exact h.kill (fun hpid => hne (hpid ▸ rfl)) _

/-- A process lives until it is killed. -/
theorem inhabits_of_run {a b : Ledger W} (hrun : ReflTransGen (Proceeds m blocks slot) a b)
    (h : Inhabits slot entry heap a.system.1) : Inhabits slot entry heap b.system.1 := by
  induction hrun with
  | refl => exact h
  | tail _ hstep ih => exact ih.proceeds hstep

/-! ## The kill -/

theorem pidInvalid_of_live (h : LiveSlot s slot) : schedulerPidInvalid s (slot + 1) = false := by
  obtain ⟨hlt, hlive⟩ := h
  unfold schedulerPidInvalid
  rw [if_neg (by omega), if_neg (by omega)]
  have hindex : ((slot : ℤ) + 1 - 1).toNat = slot := by omega
  rw [hindex, hlive]
  rfl

/-- The pointers a kill frees and the reference it closes. -/
theorem schedulerKillProcess_of_live (h : LiveSlot s slot) (w : W) :
    (schedulerKillProcess m s (slot + 1) w).2.1.freed = s.freed ++
        [(s.generalProcessTable slot).processMemory, (s.generalProcessTable slot).files,
          (s.generalProcessTable slot).fileExists] ∧
      (schedulerKillProcess m s (slot + 1) w).2.2 =
        (vfsClose m (s.generalProcessTable slot).cwd w).world := by
  have hindex : ((slot : ℤ) + 1 - 1).toNat = slot := by omega
  have hvalid := pidInvalid_of_live h
  unfold schedulerKillProcess
  rw [if_neg (by rw [hvalid]; decide), hindex]
  constructor
  · simp [schedulerRemoveEntry, ProcessTable.setSlot]
  · rfl

/-- A kill releases the state of the working directory. -/
theorem kill_blocks (hm : ∀ d, ManagesState blocks (m.drivers d)) (h : LiveSlot s slot) (w : W) :
    blocks (schedulerKillProcess m s (slot + 1) w).2.2 =
      (blocks w).releaseAll (holds s (.cwd slot)).toList := by
  have hcwd : holds s (.cwd slot) = (s.generalProcessTable slot).cwd.block := if_pos h
  rw [(schedulerKillProcess_of_live h w).2, hcwd]
  cases hblock : (s.generalProcessTable slot).cwd.block with
  | none =>
      rw [vfsClose_of_none hblock]
      rfl
  | some x =>
      rw [vfsClose_of_some hm hblock]
      rfl

/-- The kill releases all states of the process when no descriptor refers to
one. -/
theorem states_iff {store : Store ℕ} :
    store.releaseAll (holds s (.cwd slot)).toList = store.releaseAll (heldStates s slot) ↔
      ∀ i, holds s (.file slot i) = none := by
  rw [heldStates, Store.releaseAll_append, eq_comm, Store.releaseAll_eq_self_iff,
    List.filterMap_eq_nil_iff]
  constructor
  · intro h i
    by_cases hi : i < maxFilesPerProcess
    · exact h i (List.mem_range.mpr hi)
    · rw [holds, if_neg]
      rintro ⟨-, -, hlt, -⟩
      exact hi hlt
  · exact fun h i _ => h i

/-- Nothing is released twice when the state of the working directory is
allocated. -/
theorem once_iff {store : Store ℕ} {x : Option ℕ} :
    (store.releaseAll x.toList).badReleases = store.badReleases ↔ ∀ y ∈ x, y ∈ store.live := by
  cases x with
  | none => simp
  | some y =>
      change (if y ∈ store.live then store.badReleases else store.badReleases + 1) = _ ↔ _
      by_cases hy : y ∈ store.live
      · simp [hy]
      · simp [hy]

theorem releaseAll_toList_live {store : Store ℕ} {x : Option ℕ} :
    (store.releaseAll x.toList).live = store.live \ x.toFinset := by
  cases x with
  | none => simp
  | some y => exact (Finset.sdiff_singleton_eq_erase y store.live).symm

/-- A kill releases what the process owns, and leaves what would be without it,
exactly when the process closed no descriptor and the state of its working
directory is all it still has. -/
theorem kill_releases_iff (hm : ∀ d, ManagesState blocks (m.drivers d)) (a₀ : System W)
    (entry : NewEntry) (heap : HeapAnswer) {a : Ledger W}
    (hrun : ReflTransGen (Proceeds m blocks a₀.1.nextSlot)
      ⟨(schedulerNewEntry a₀.1 entry heap, a₀.2), (blocks a₀.2).live⟩ a) :
    Releases blocks a₀.1.nextSlot entry heap a
        (schedulerKillProcess m a.system.1 (a₀.1.nextSlot + 1) a.system.2).2 ↔
      Unburdened blocks a₀.1.nextSlot heap a := by
  obtain ⟨hlive, hmemory, hfiles⟩ := inhabits_of_run hrun (inhabits_new a₀.1 entry heap)
  obtain ⟨hfreed, -⟩ := schedulerKillProcess_of_live (m := m) hlive a.system.2
  have hblocks := kill_blocks hm hlive a.system.2
  rw [hmemory, hfiles] at hfreed
  constructor
  · rintro ⟨⟨freed, happend, hperm⟩, hstates, honce, hrest⟩
    rw [hfreed, List.append_cancel_left_eq] at happend
    subst happend
    rw [hblocks] at hstates honce hrest
    refine ⟨?_, states_iff.mp hstates, once_iff.mp honce, ?_⟩
    · simpa [List.perm_cons] using hperm
    · rw [← releaseAll_toList_live, hrest]
  · rintro ⟨hexists, hnone, hcwd, hrest⟩
    refine ⟨⟨_, hfreed, ?_⟩, ?_, ?_, ?_⟩
    · rw [hexists]
    · rw [hblocks]
      exact states_iff.mpr hnone
    · rw [hblocks]
      exact once_iff.mpr hcwd
    · rw [hblocks, releaseAll_toList_live, hrest]

end Life

/-! ## One process -/

/-- A process image and two arrays at addresses of their own. -/
def someEntry : NewEntry := ⟨-1, 0, 300, vfsRoot, 0, 1⟩

/-- The heap blocks of its arrays. -/
def someHeap : HeapAnswer := ⟨100, 200, fun _ => leftover false⟩

/-- The system after `scheduler_init`. -/
def bareSystem : System (Store ℕ) := (freshTable, emptyStore)

/-- The first process, created by the kernel. -/
def createdLedger : Ledger (Store ℕ) :=
  ⟨(schedulerNewEntry bareSystem.1 someEntry someHeap, bareSystem.2), bareSystem.2.live⟩

/-- The process is switched to and makes a call. -/
theorem run_of_call {request : Request} {b : System (Store ℕ)}
    (h : perform (storeMounts 0) someProcess
      ({ createdLedger.system.1 with processRunning := 0 }, emptyStore) request = some b) :
    ReflTransGen (Proceeds (storeMounts 0) id 0) createdLedger ⟨b, ∅⟩ := by
  have hswitch : Proceeds (storeMounts 0) id 0 createdLedger
      ⟨({ createdLedger.system.1 with processRunning := 0 }, emptyStore), ∅⟩ :=
    ⟨.call someProcess (.switch 0), nofun, rfl, by decide⟩
  exact (ReflTransGen.single hswitch).tail
    ⟨.call someProcess request, nofun, h, rfl⟩

/-- A process that changes its directory and is killed. -/
theorem kill_releases_iff_chdir : ∃ a : Ledger (Store ℕ),
    a.system.2.live = {1} ∧
      Releases id 0 someEntry someHeap a
        (schedulerKillProcess (storeMounts 0) a.system.1 1 a.system.2).2 := by
  obtain ⟨b, hb⟩ : ∃ b, perform (storeMounts 0) someProcess
      ({ createdLedger.system.1 with processRunning := 0 }, emptyStore) (.chdir [97]) = some b :=
    ⟨_, rfl⟩
  refine ⟨⟨b, ∅⟩, ?_, (kill_releases_iff (fun _ => storeDriver_managesState 0) bareSystem someEntry
    someHeap (run_of_call hb)).mpr ⟨?_, ?_, ?_, ?_⟩⟩
  · cases hb
    decide +kernel
  · cases hb
    rfl
  · intro i
    rw [holds, if_neg]
    rintro ⟨-, -, -, hmark⟩
    cases hb
    change (if 200 = 200 ∧ i < maxFilesPerProcess then false else false) = true at hmark
    simp at hmark
  · cases hb
    decide +kernel
  · cases hb
    decide +kernel

/-- A process that opens a file and is killed: the state of the file stays
allocated. -/
theorem kill_leaks_file : ∃ a : Ledger (Store ℕ),
    ReflTransGen (Proceeds (storeMounts 0) id bareSystem.1.nextSlot)
        ⟨(schedulerNewEntry bareSystem.1 someEntry someHeap, bareSystem.2), bareSystem.2.live⟩ a ∧
      a.others = ∅ ∧
      (schedulerKillProcess (storeMounts 0) a.system.1 1 a.system.2).2.2.live = {1} ∧
      ¬ Releases id 0 someEntry someHeap a
        (schedulerKillProcess (storeMounts 0) a.system.1 1 a.system.2).2 := by
  obtain ⟨b, hb⟩ : ∃ b, perform (storeMounts 0) someProcess
      ({ createdLedger.system.1 with processRunning := 0 }, emptyStore) (.open [97] 0) = some b :=
    ⟨_, rfl⟩
  have hlive : (schedulerKillProcess (storeMounts 0) b.1 1 b.2).2.2.live = {1} := by
    cases hb
    decide +kernel
  refine ⟨⟨b, ∅⟩, run_of_call hb, rfl, hlive, ?_⟩
  rintro ⟨-, -, -, hrest⟩
  rw [id_eq, hlive] at hrest
  exact absurd hrest (Finset.singleton_ne_empty 1)

end Neos.Syscall
