import Neos.Kmalloc.Realloc
import Neos.Scheduler.Model
import Neos.Syscall.Gdt

/-!
# The break of a process

`sys_brk` answers with the last address of the memory of the calling process
when the requested break lies within it.  Otherwise it asks `krealloc` for a
larger block, and answers with the size of that block instead of its last
address.
-/

namespace Neos.Syscall

open Scheduler Kmalloc Relation

/-! ## The call -/

/-- `scheduler_move_process`. -/
def schedulerMoveProcess (s : ProcessTable) (pid : ℤ) (newAddress : ℕ) : ℤ × ProcessTable :=
  if schedulerPidInvalid s pid then (1, s)
  else
    let index := (pid - 1).toNat
    (0, s.setSlot index { s.generalProcessTable index with processMemory := newAddress })

/-- What the call works on: the process table, the heap and the segment
descriptors. -/
structure Machine where
  table : ProcessTable
  alloc : Allocator
  gdt : ℤ → ℕ

/-- How a call ends. -/
inductive BrkResult
  | panicked
  | returned (value : ℤ) (machine : Machine)

/-- `sys_brk`; the descriptor on the stack starts with arbitrary contents.  The
end of the memory is a signed number, the requested break is not, so they are
compared as words. -/
def sysBrk (frames : ℕ) (descriptor : ProcessDescriptor) (m : Machine) (brk : ℕ) :
    Option BrkResult := do
  let caller := schedulerGetCurrentPid m.table
  let process := (schedulerLoadProcessInfo m.table descriptor caller).2
  let memoryAddress := toInt process.processMemory
  let size := toInt (← kmsz m.alloc (toWord memoryAddress))
  let endAddress := wrapInt (memoryAddress + size - 1)
  if toWord endAddress ≥ brk then some (.returned endAddress m)
  else
    let newSize := (toWord size + (brk + 2 ^ 32 - toWord endAddress)) % 2 ^ 32
    let (newProcessMemory, alloc) ← krealloc frames m.alloc (toWord memoryAddress) newSize
    if newProcessMemory = 0 then some .panicked
    else
      let actualNewSize := toInt (← kmsz alloc newProcessMemory)
      some (.returned actualNewSize
        { table := (schedulerMoveProcess m.table caller newProcessMemory).2
          alloc := alloc
          gdt := gad m.gdt process.processSegmentsIndex newProcessMemory (toWord actualNewSize) })

/-! ## What the call should do -/

/-- The memory the table records for the running process. -/
def Machine.processMemory (m : Machine) : ℕ :=
  (m.table.generalProcessTable (schedulerGetCurrentPid m.table - 1).toNat).processMemory

/-- The last address of that memory. -/
def Machine.lastAddress (m : Machine) : Option ℕ :=
  (kmsz m.alloc m.processMemory).map (m.processMemory + · - 1)

/-- The value returned is the last address of the recorded memory, which reaches
the requested break, and the same call again returns it and leaves the memory
where and as large as it is. -/
structure BrkMeets (frames : ℕ) (descriptor : ProcessDescriptor) (brk : ℕ) (value : ℤ)
    (after : Machine) : Prop where
  last : after.lastAddress = some (toWord value)
  enough : brk ≤ toWord value
  again : ∃ m, sysBrk frames descriptor after brk = some (.returned value m) ∧
    m.processMemory = after.processMemory ∧ m.lastAddress = after.lastAddress

/-! ## The pointers of `krealloc` -/

theorem kmalloc_ge {frames size r : ℕ} {s s' : Allocator}
    (h : kmalloc frames s size = some (r, s')) : r = 0 ∨ s.offset ≤ r := by
  unfold kmalloc at h
  dsimp only at h
  split at h
  · obtain ⟨rfl, -⟩ := Prod.mk.inj (Option.some.inj h)
    exact Or.inl rfl
  · split at h
    · cases h
    · obtain ⟨rfl, -⟩ := Prod.mk.inj (Option.some.inj h)
      exact Or.inr (Nat.le_add_left _ _)

variable {frames : ℕ} {s₀ : Allocator} {live : List Block} {b : Block} {m after : Machine}
  {descriptor : ProcessDescriptor} {brk : ℕ} {value : ℤ}

/-- A pointer of `krealloc` lies behind the first words of the memory. -/
theorem krealloc_ge {s s' : Allocator} {size r : ℕ} (hp : Prepared s₀)
    (hrun : ReflTransGen (Step frames) ⟨s₀, []⟩ ⟨s, live⟩) (hb : b ∈ live)
    (hcall : krealloc frames s b.start size = some (r, s')) : r = 0 ∨ lowEnd ≤ r := by
  obtain ⟨fixed, a, ht⟩ := hp.tracked hrun
  obtain ⟨x, hx, hxb⟩ := ht.invariant.simulates.exists_node hb
  have hstart := start_mem_range s x
  have hl := ht.areaLevel_eq hx hstart
  have hge : lowEnd ≤ s.offset := ht.offset_ge
  have hoffset : (kfree s (s.block x).start).offset = s.offset := by
    obtain ⟨mem, hmem⟩ := (ht.kfree_confined hx).same
    rw [hmem]
  rw [← hxb] at hcall
  rcases krealloc_cases hl hcall with
    ⟨-, rfl, -⟩ | ⟨-, ⟨-, rfl, -⟩ | ⟨-, rfl, -⟩ | ⟨-, -, s₂, hmalloc, -⟩⟩
  · exact Or.inr (ht.block_inside hx hstart).1
  · refine Or.inr (hge.trans ?_)
    rw [← hoffset]
    exact Nat.le_add_right _ _
  · exact Or.inl rfl
  · exact (kmalloc_ge hmalloc).imp_right fun h => hge.trans (hoffset ▸ h)

/-- A live block lies in memory, and `kmsz` knows its size. -/
theorem block_bounds (hp : Prepared s₀)
    (hrun : ReflTransGen (Step frames) ⟨s₀, []⟩ ⟨m.alloc, live⟩) (hb : b ∈ live) :
    kmsz m.alloc b.start = some b.size ∧ 1 ≤ b.size ∧ b.start + b.size ≤ 2 ^ 32 := by
  obtain ⟨fixed, a, ht⟩ := hp.tracked hrun
  obtain ⟨x, hx, rfl⟩ := ht.invariant.simulates.exists_node hb
  have hstart := start_mem_range m.alloc x
  have hend : (m.alloc.block x).start + (m.alloc.block x).size ≤ m.alloc.offset + m.alloc.end_ :=
    block_end_le (ht.invariant.held_le_root hx) (ht.invariant.apart_system hx)
  have hfits : m.alloc.offset + m.alloc.size ≤ 2 ^ 32 := ht.invariant.layout.fits
  have hsize : m.alloc.end_ + 2 ^ (m.alloc.maxTreeLevel - 1) = m.alloc.size :=
    ht.invariant.layout.end_eq
  have hpos : (m.alloc.block x).start < (m.alloc.block x).start + (m.alloc.block x).size := hstart.2
  have htables := Nat.two_pow_pos (m.alloc.maxTreeLevel - 1)
  have hbounds : 1 ≤ (m.alloc.block x).size ∧
      (m.alloc.block x).start + (m.alloc.block x).size ≤ 2 ^ 32 := ⟨by omega, by omega⟩
  exact ⟨ht.kmsz_eq hb hstart, hbounds⟩

theorem toWord_lastAddress {start size : ℕ} (h₁ : 1 ≤ size) (h₂ : start + size ≤ 2 ^ 32) :
    toWord (wrapInt (toInt start + toInt size - 1)) = start + size - 1 := by
  rw [wrapInt, toWord_toInt]
  unfold toWord toInt
  split <;> split <;> omega

/-! ## The two branches -/

/-- The running process has a descriptor, and its memory is a live block. -/
structure Owns (m : Machine) (b : Block) : Prop where
  valid : schedulerPidInvalid m.table (schedulerGetCurrentPid m.table) = false
  memory : m.processMemory = b.start

theorem Owns.loaded (h : Owns m b) (descriptor : ProcessDescriptor) :
    (schedulerLoadProcessInfo m.table descriptor
      (schedulerGetCurrentPid m.table)).2.processMemory = b.start := by
  rw [schedulerLoadProcessInfo, h.valid]
  exact h.memory

/-- Within the block the last address is returned, and nothing changes. -/
theorem sysBrk_within (descriptor : ProcessDescriptor) (hp : Prepared s₀)
    (hrun : ReflTransGen (Step frames) ⟨s₀, []⟩ ⟨m.alloc, live⟩) (hb : b ∈ live)
    (howns : Owns m b) (hbrk : brk ≤ b.start + b.size - 1) :
    sysBrk frames descriptor m brk =
      some (.returned (wrapInt (toInt b.start + toInt b.size - 1)) m) := by
  obtain ⟨hkmsz, hpos, hfits⟩ := block_bounds hp hrun hb
  have hstart : toWord (toInt b.start) = b.start := by
    rw [toWord_toInt]
    exact Nat.mod_eq_of_lt (by omega)
  unfold sysBrk
  dsimp only
  rw [howns.loaded, hstart, hkmsz]
  dsimp only [Option.bind_eq_bind, Option.bind_some]
  rw [toWord_lastAddress hpos hfits, if_pos hbrk]

/-- Beyond the block the size of the block that `krealloc` returned is the
answer, and the table records where it is. -/
theorem sysBrk_beyond (hp : Prepared s₀)
    (hrun : ReflTransGen (Step frames) ⟨s₀, []⟩ ⟨m.alloc, live⟩) (hb : b ∈ live)
    (howns : Owns m b) (hbrk : b.start + b.size - 1 < brk)
    (hcall : sysBrk frames descriptor m brk = some (.returned value after)) :
    ∃ size, kmsz after.alloc after.processMemory = some size ∧ value = toInt size ∧
      lowEnd ≤ after.processMemory := by
  obtain ⟨hkmsz, hpos, hfits⟩ := block_bounds hp hrun hb
  have hstart : toWord (toInt b.start) = b.start := by
    rw [toWord_toInt]
    exact Nat.mod_eq_of_lt (by omega)
  unfold sysBrk at hcall
  dsimp only at hcall
  rw [howns.loaded, hstart, hkmsz] at hcall
  dsimp only [Option.bind_eq_bind, Option.bind_some] at hcall
  rw [toWord_lastAddress hpos hfits, if_neg (Nat.not_le_of_lt hbrk)] at hcall
  obtain ⟨⟨r, alloc⟩, hrealloc, hcall⟩ := Option.bind_eq_some_iff.mp hcall
  dsimp only at hcall
  split at hcall
  · cases hcall
  · next hr =>
      obtain ⟨size, hsize, hcall⟩ := Option.bind_eq_some_iff.mp hcall
      cases hcall
      have hmoved : Machine.processMemory
          { table := (schedulerMoveProcess m.table (schedulerGetCurrentPid m.table) r).2
            alloc := alloc
            gdt := gad m.gdt (schedulerLoadProcessInfo m.table descriptor
              (schedulerGetCurrentPid m.table)).2.processSegmentsIndex r
                (toWord (toInt size)) } = r := by
        unfold Machine.processMemory schedulerMoveProcess
        rw [howns.valid]
        exact congrArg ProcessDescriptor.processMemory (if_pos rfl)
      refine ⟨size, ?_, rfl, ?_⟩
      · rw [hmoved]
        exact hsize
      · rw [hmoved]
        exact (krealloc_ge hp hrun hb hrealloc).resolve_left hr

/-- In every reachable state of the heap, a call that returns meets its purpose
exactly when the requested break lies within the memory the process has. -/
theorem sysBrk_meets_iff (hp : Prepared s₀)
    (hrun : ReflTransGen (Step frames) ⟨s₀, []⟩ ⟨m.alloc, live⟩) (hb : b ∈ live)
    (howns : Owns m b)
    (hcall : sysBrk frames descriptor m brk = some (.returned value after)) :
    BrkMeets frames descriptor brk value after ↔ brk ≤ b.start + b.size - 1 := by
  obtain ⟨hkmsz, hpos, hfits⟩ := block_bounds hp hrun hb
  constructor
  · intro hmeets
    by_contra hbrk
    obtain ⟨size, hsize, hvalue, hlow⟩ :=
      sysBrk_beyond hp hrun hb howns (Nat.lt_of_not_le hbrk) hcall
    -- the size of the block would be its last address
    have hlast := hmeets.last
    rw [Machine.lastAddress, hsize, Option.map_some, Option.some_inj, hvalue, toWord_toInt] at hlast
    unfold lowEnd at hlow
    omega
  · intro hbrk
    have hwithin := sysBrk_within descriptor hp hrun hb howns hbrk
    rw [hwithin] at hcall
    cases hcall
    have hword := toWord_lastAddress hpos hfits
    refine ⟨?_, by rw [hword]; exact hbrk, m, hwithin, rfl, rfl⟩
    rw [Machine.lastAddress, howns.memory, hkmsz, Option.map_some, hword]

/-! ## One process in a small arena -/

/-- A process whose memory is the segment at 4096. -/
def segmentProcess : ProcessDescriptor :=
  ⟨true, 0, 4096, .runnable, 0, 0, 0, Vfs.vfsRoot, Vfs.vfsRoot, 0, 3⟩

/-- The process running on an arena. -/
def segmentMachine (alloc : Allocator) : Machine where
  table := ⟨fun _ => segmentProcess, 1, 2, 0, fun _ _ => Vfs.vfsRoot, fun _ _ => false, []⟩
  alloc := alloc
  gdt := fun _ => 0

/-- A break inside the segment. -/
theorem sysBrk_meets_segment :
    ∃ s₁, kmalloc 64 smallArena 1000 = some (4096, s₁) ∧
      BrkMeets 64 segmentProcess 5000 5119 (segmentMachine s₁) := by
  obtain ⟨s₁, hcall⟩ := kmalloc_smallArena
  have hrun : ReflTransGen (Step 64) ⟨smallArena, []⟩ ⟨s₁, grant [] 4096 1000⟩ :=
    .single (.malloc smallArena_serves hcall)
  have hlive : grant [] 4096 1000 = [⟨4096, 1024⟩] := by
    rw [grant_of_ne (by decide), reservedSize, levelFor_thousand]
    rfl
  rw [hlive] at hrun
  have howns : Owns (segmentMachine s₁) ⟨4096, 1024⟩ := ⟨rfl, rfl⟩
  have hbrk : sysBrk 64 segmentProcess (segmentMachine s₁) 5000 =
      some (.returned 5119 (segmentMachine s₁)) :=
    sysBrk_within segmentProcess smallArena_prepared hrun (List.mem_singleton.mpr rfl) howns (by decide)
  exact ⟨s₁, hcall, (sysBrk_meets_iff smallArena_prepared hrun (List.mem_singleton.mpr rfl) howns
    hbrk).mpr (by decide)⟩

/-- The value a call returned, and the last address it left. -/
def BrkResult.ends : BrkResult → Option (ℤ × Option ℕ)
  | .panicked => none
  | .returned value m => some (value, m.lastAddress)

/-- A break behind the segment: the block grows to 4096 .. 6143, and 2048 is
returned. -/
theorem sysBrk_returns_size :
    ∃ s₁ value after, kmalloc 64 smallArena 1000 = some (4096, s₁) ∧
      sysBrk 64 segmentProcess (segmentMachine s₁) 6000 = some (.returned value after) ∧
      ¬ BrkMeets 64 segmentProcess 6000 value after := by
  have hrun : ((kmalloc 64 smallArena 1000).bind fun p =>
      (sysBrk 64 segmentProcess (segmentMachine p.2) 6000).bind BrkResult.ends) =
        some (2048, some 6143) := by
    decide +kernel
  obtain ⟨s₁, hcall⟩ := kmalloc_smallArena
  rw [hcall, Option.bind_some] at hrun
  obtain ⟨result, hresult, hends⟩ := Option.bind_eq_some_iff.mp hrun
  cases result with
  | panicked => cases hends
  | returned value after =>
      obtain ⟨rfl, hlast⟩ := Prod.mk.inj (Option.some.inj hends)
      refine ⟨s₁, 2048, after, hcall, hresult, fun hmeets => ?_⟩
      have hwrong := hmeets.last
      rw [hlast] at hwrong
      exact absurd (Option.some.inj hwrong) (by decide)

end Neos.Syscall
