import Neos.Fat.Fatfs
import Neos.Scheduler.Switching
import Neos.Syscall.Model

/-!
# Reading and writing through descriptors

`sys_read`, `sys_write` and `sys_lseek` find the reference behind a descriptor of the
running process and hand the call to its driver.  The processes of a kernel whose files
are on one FAT volume cannot tell it from one whose files are sequences of bytes.
-/

namespace Neos.Syscall

open Vfs Scheduler Simulation Fat ByteRange

/-! ## The calls -/

section

variable {K α β : Type}

/-- `sys_read`; a negative number of bytes becomes a large one. -/
def sysRead (drivers : ℕ → FileDriver K α β) (s : ProcessTable) (fd : ℤ) (buffer : ℕ → UInt8)
    (bytes : ℤ) (k : K) : Plan α β (Transfer × K) :=
  match fdResolve s fd with
  | none => .answer (⟨-linuxEbadf, some buffer⟩, k)
  | some vref => vfsRead drivers vref buffer (toWord bytes) k

/-- `sys_write`. -/
def sysWrite (drivers : ℕ → FileDriver K α β) (s : ProcessTable) (fd : ℤ) (buffer : ℕ → UInt8)
    (bytes : ℤ) (k : K) : Plan α β (Transfer × K) :=
  match fdResolve s fd with
  | none => .answer (⟨-linuxEbadf, none⟩, k)
  | some vref => vfsWrite drivers vref buffer (toWord bytes) k

/-- `sys_lseek`; the descriptor and `whence` are unsigned here and signed below. -/
def sysLseek (drivers : ℕ → FileDriver K α β) (s : ProcessTable) (fd : ℕ) (offset : ℤ)
    (whence : ℕ) (k : K) : Plan α β (Transfer × K) :=
  match fdResolve s (toInt fd) with
  | none => .answer (⟨-linuxEbadf, none⟩, k)
  | some vref => vfsSeekFrom drivers vref offset (toInt whence) k

end

/-- What reaches the kernel: a call of the running process, or a tick of the timer, which
lets another process run. -/
inductive FileCall
  | read (fd : ℤ) (buffer : ℕ → UInt8) (bytes : ℤ)
  | write (fd : ℤ) (buffer : ℕ → UInt8) (bytes : ℤ)
  | lseek (fd : ℕ) (offset : ℤ) (whence : ℕ)
  | tick (fuel : ℕ) (oldStack : ℕ)

/-- What the kernel keeps in memory: the process table, and the handles in the state
blocks of directories. -/
structure KernelState where
  machine : Scheduler.Machine
  dirs : ℕ → Option FatFile

/-- What a call does, and a tick, which returns the stack to go on with. -/
def FileCall.plan (drivers : ℕ → FileDriver (ℕ → Option FatFile) (ℕ × FileOp) FileAnswer)
    (k : KernelState) : FileCall → Plan (ℕ × FileOp) FileAnswer (Transfer × KernelState)
  | .read fd buffer bytes =>
      (sysRead drivers k.machine.table fd buffer bytes k.dirs).map fun r =>
        (r.1, { k with dirs := r.2 })
  | .write fd buffer bytes =>
      (sysWrite drivers k.machine.table fd buffer bytes k.dirs).map fun r =>
        (r.1, { k with dirs := r.2 })
  | .lseek fd offset whence =>
      (sysLseek drivers k.machine.table fd offset whence k.dirs).map fun r =>
        (r.1, { k with dirs := r.2 })
  | .tick fuel oldStack =>
      match schedulerContextSwitch fuel k.machine oldStack with
      | none => .stuck
      | some switched => .answer (⟨switched.stack, none⟩, { k with machine := switched.machine })

/-! ## What a process should see -/

/-- What a descriptor stands for. -/
inductive Referent
  | unbound
  | nothing
  | directory (state : ℕ) (dir : FatFile)
  | file (state : ℕ)
  | elsewhere

/-- What a descriptor of the running process stands for, when `volume` is the number of
the driver. -/
def KernelState.referent (volume : ℕ) (k : KernelState) (fd : ℤ) : Referent :=
  match fdResolve k.machine.table fd with
  | none => .unbound
  | some vref =>
      match vref.driver with
      | none => .nothing
      | some driver =>
          if driver = volume then
            match k.dirs vref.state with
            | some dir => .directory vref.state dir
            | none => .file vref.state
          else .elsewhere

/-- A read of some bytes: it returns how many it got. -/
def readBytesOf (t : ByteFiles ℕ) (k : KernelState) (buffer : ℕ → UInt8) (bytes : ℕ) :
    Referent → Option (Transfer × KernelState × ByteFiles ℕ)
  | .unbound => some (⟨-linuxEbadf, some buffer⟩, k, t)
  | .nothing => some (⟨0, some buffer⟩, k, t)
  | .directory _ _ => some (⟨-linuxEisdir, some buffer⟩, k, t)
  | .file state => (t state).map fun f =>
      (⟨(f.ahead bytes).length, some (writeBytes buffer 0 (f.ahead bytes))⟩, k,
        Function.update t state (some (f.read bytes)))
  | .elsewhere => none

/-- A write of some bytes: it returns their number. -/
def writeBytesOf (t : ByteFiles ℕ) (k : KernelState) (buffer : ℕ → UInt8) (bytes : ℕ) :
    Referent → Option (Transfer × KernelState × ByteFiles ℕ)
  | .unbound => some (⟨-linuxEbadf, none⟩, k, t)
  | .nothing => some (⟨0, none⟩, k, t)
  | .directory _ _ => some (⟨-linuxEisdir, none⟩, k, t)
  | .file state => (t state).map fun f =>
      (⟨bytes, none⟩, k, Function.update t state (some (f.write (readBytes buffer 0 bytes))))
  | .elsewhere => none

/-- A seek: it returns the new position. -/
def seekOf (t : ByteFiles ℕ) (k : KernelState) (offset whence : ℤ) :
    Referent → Option (Transfer × KernelState × ByteFiles ℕ)
  | .unbound => some (⟨-linuxEbadf, none⟩, k, t)
  | .nothing =>
      some (⟨if whence = 0 ∨ whence = 1 ∨ whence = 2 then 0 else -badWhence, none⟩, k, t)
  | .directory state dir =>
      if whence = 0 ∨ whence = 1 ∨ whence = 2 then
        let sought := fatfsSeek ⟨true, dir⟩ offset whence
        some (⟨sought.1, none⟩,
          { k with dirs := Function.update k.dirs state (some sought.2.file) }, t)
      else some (⟨-badWhence, none⟩, k, t)
  | .file state =>
      if whence = 0 ∨ whence = 1 ∨ whence = 2 then
        (t state).map fun f =>
          (⟨target f.position f.size offset whence, none⟩, k, Function.update t state
            (some (f.seek (target f.position f.size offset whence).toNat)))
      else some (⟨-badWhence, none⟩, k, t)
  | .elsewhere => none

/-- A call of the running process on files of bytes, and a tick. -/
def FileCall.onBytes (volume : ℕ) (s : KernelState × ByteFiles ℕ) :
    FileCall → Option (Transfer × KernelState × ByteFiles ℕ)
  | .read fd buffer bytes => readBytesOf s.2 s.1 buffer bytes.toNat (s.1.referent volume fd)
  | .write fd buffer bytes => writeBytesOf s.2 s.1 buffer bytes.toNat (s.1.referent volume fd)
  | .lseek fd offset whence => seekOf s.2 s.1 offset (toInt whence) (s.1.referent volume (toInt fd))
  | .tick fuel oldStack => (schedulerContextSwitch fuel s.1.machine oldStack).map fun switched =>
      (⟨switched.stack, none⟩, { s.1 with machine := switched.machine }, s.2)

/-! ## What the calls rely on -/

/-- The descriptor is not one of another driver, and a file behind it meets a condition. -/
def Referent.OnFile (P : ℕ → Prop) : Referent → Prop
  | .file state => P state
  | .elsewhere => False
  | _ => True

instance (P : ℕ → Prop) [DecidablePred P] (r : Referent) : Decidable (r.OnFile P) :=
  match r with
  | .file state => inferInstanceAs (Decidable (P state))
  | .elsewhere => isFalse id
  | .unbound => isTrue trivial
  | .nothing => isTrue trivial
  | .directory _ _ => isTrue trivial

/-- A number of bytes is not negative, a write has room, a seek stays in the file, and a
tick finds a process. -/
def FileCall.Served (g : Bpb) (volume : ℕ) (s : KernelState × Store ℕ) : FileCall → Prop
  | .read fd _ bytes => 0 ≤ bytes ∧ bytes < 2 ^ 31 ∧
      (s.1.referent volume fd).OnFile fun state => ∃ file, s.2.handle state = some file
  | .write fd _ bytes => 0 ≤ bytes ∧ bytes < 2 ^ 31 ∧
      (s.1.referent volume fd).OnFile fun state => ∃ file, s.2.handle state = some file ∧
        Room g s.2.state.disk file bytes.toNat
  | .lseek fd offset whence =>
      (s.1.referent volume (toInt fd)).OnFile fun state => ∃ file, s.2.handle state = some file ∧
        0 ≤ target file.cursor file.fatDir.dirFileSize offset (toInt whence) ∧
        target file.cursor file.fatDir.dirFileSize offset (toInt whence) ≤
          file.fatDir.dirFileSize ∧
        target file.cursor file.fatDir.dirFileSize offset (toInt whence) < 2 ^ 31
  | .tick fuel oldStack => ∃ switched, schedulerContextSwitch fuel s.1.machine oldStack = some switched

/-! ## Each call -/

section

variable {g : Bpb} {drivers : ℕ → FileDriver (ℕ → Option FatFile) (ℕ × FileOp) FileAnswer}
  {volume : ℕ} {k : KernelState} {c : Store ℕ} {t : ByteFiles ℕ} {fd : ℤ} {r : Referent}
  {P Q : ℕ → Prop}

theorem toWord_of_nonneg {z : ℤ} (hlo : 0 ≤ z) (hhi : z < 2 ^ 31) : toWord z = z.toNat := by
  unfold toWord
  omega

theorem Referent.OnFile.mono (h : r.OnFile P) (hle : ∀ state, P state → Q state) : r.OnFile Q := by
  cases r with
  | file state => exact hle state h
  | elsewhere => exact h
  | _ => trivial

/-- The cases of `KernelState.referent`. -/
inductive Refers (volume : ℕ) (k : KernelState) (fd : ℤ) : Referent → Prop
  | unbound (h : fdResolve k.machine.table fd = none) : Refers volume k fd .unbound
  | nothing {vref : VRef} (h : fdResolve k.machine.table fd = some vref)
      (hdriver : vref.driver = none) : Refers volume k fd .nothing
  | directory {vref : VRef} {dir : FatFile} (h : fdResolve k.machine.table fd = some vref)
      (hdriver : vref.driver = some volume) (hdir : k.dirs vref.state = some dir) :
      Refers volume k fd (.directory vref.state dir)
  | file {vref : VRef} (h : fdResolve k.machine.table fd = some vref)
      (hdriver : vref.driver = some volume) (hfile : k.dirs vref.state = none) :
      Refers volume k fd (.file vref.state)
  | elsewhere : Refers volume k fd .elsewhere

theorem KernelState.refers (volume : ℕ) (k : KernelState) (fd : ℤ) :
    Refers volume k fd (k.referent volume fd) := by
  unfold KernelState.referent
  split
  · next h => exact .unbound h
  · next vref h =>
      split
      · next hdriver => exact .nothing h hdriver
      · next driver hdriver =>
          split
          · next heq =>
              subst heq
              split
              · next dir hdir => exact .directory h hdriver hdir
              · next hfile => exact .file h hdriver hfile
          · exact .elsewhere

/-- A read of a file is a read of its bytes. -/
theorem above_read (hvolume : drivers volume = fatfs) (hrefers : Refers volume k fd r)
    (hfile : r.OnFile fun state => ∃ f, t state = some f) (buffer : ℕ → UInt8) {bytes : ℤ}
    (hlo : 0 ≤ bytes) (hhi : bytes < 2 ^ 31) :
    above (FileCall.plan drivers) onFiles (k, t) (.read fd buffer bytes) =
      readBytesOf t k buffer bytes.toNat r := by
  unfold above FileCall.plan sysRead
  dsimp only
  rw [Plan.perform_map]
  cases hrefers with
  | unbound h =>
      rw [h]
      rfl
  | nothing h hdriver =>
      rw [h]
      dsimp only
      rw [vfsRead, hdriver]
      rfl
  | directory h hdriver hdir =>
      rw [h]
      dsimp only
      rw [vfsRead, hdriver]
      dsimp only
      rw [hvolume, fatfs]
      dsimp only
      rw [fatfsRead, hdir]
      rfl
  | file h hdriver hnone =>
      obtain ⟨f, hf⟩ := hfile
      rw [h]
      dsimp only
      rw [vfsRead, hdriver]
      dsimp only
      rw [hvolume, fatfs]
      dsimp only
      rw [toWord_of_nonneg hlo hhi, perform_fatfsRead hnone hf buffer (by omega), readBytesOf, hf]
      rfl
  | elsewhere => exact hfile.elim

/-- A write to a file is a write to its bytes. -/
theorem above_write (hvolume : drivers volume = fatfs) (hrefers : Refers volume k fd r)
    (hfile : r.OnFile fun state => ∃ f, t state = some f) (buffer : ℕ → UInt8) {bytes : ℤ}
    (hlo : 0 ≤ bytes) (hhi : bytes < 2 ^ 31) :
    above (FileCall.plan drivers) onFiles (k, t) (.write fd buffer bytes) =
      writeBytesOf t k buffer bytes.toNat r := by
  unfold above FileCall.plan sysWrite
  dsimp only
  rw [Plan.perform_map]
  cases hrefers with
  | unbound h =>
      rw [h]
      rfl
  | nothing h hdriver =>
      rw [h]
      dsimp only
      rw [vfsWrite, hdriver]
      rfl
  | directory h hdriver hdir =>
      rw [h]
      dsimp only
      rw [vfsWrite, hdriver]
      dsimp only
      rw [hvolume, fatfs]
      dsimp only
      rw [fatfsWrite, hdir]
      rfl
  | file h hdriver hnone =>
      obtain ⟨f, hf⟩ := hfile
      rw [h]
      dsimp only
      rw [vfsWrite, hdriver]
      dsimp only
      rw [hvolume, fatfs]
      dsimp only
      rw [toWord_of_nonneg hlo hhi, perform_fatfsWrite hnone hf buffer (by omega), writeBytesOf, hf]
      rfl
  | elsewhere => exact hfile.elim

/-- A seek in a file moves the position in its bytes. -/
theorem above_lseek {fd : ℕ} (hvolume : drivers volume = fatfs)
    (hrefers : Refers volume k (toInt fd) r) {offset : ℤ} {whence : ℕ}
    (hfile : r.OnFile fun state => ∃ f, t state = some f ∧
      0 ≤ target f.position f.size offset (toInt whence) ∧
      target f.position f.size offset (toInt whence) < 2 ^ 31) :
    above (FileCall.plan drivers) onFiles (k, t) (.lseek fd offset whence) =
      seekOf t k offset (toInt whence) r := by
  unfold above FileCall.plan sysLseek
  dsimp only
  rw [Plan.perform_map]
  cases hrefers with
  | unbound h =>
      rw [h]
      rfl
  | nothing h hdriver =>
      rw [h]
      dsimp only
      rw [vfsSeekFrom, hdriver, seekOf]
      split
      · next hbad => rw [if_neg (by omega)]; rfl
      · next hgood => rw [if_pos (by omega)]; rfl
  | directory h hdriver hdir =>
      rw [h]
      dsimp only
      rw [vfsSeekFrom, hdriver, seekOf]
      split
      · next hbad => rw [if_neg (by omega)]; rfl
      · next hgood =>
          rw [if_pos (by omega)]
          dsimp only
          rw [hvolume, fatfs]
          dsimp only
          rw [fatfsSeekPlan, hdir]
          rfl
  | file h hdriver hnone =>
      obtain ⟨f, hf, hlo, hhi⟩ := hfile
      rw [h]
      dsimp only
      rw [vfsSeekFrom, hdriver, seekOf]
      split
      · next hbad => rw [if_neg (by omega)]; rfl
      · next hgood =>
          rw [if_pos (by omega)]
          dsimp only
          rw [hvolume, fatfs]
          dsimp only
          rw [perform_fatfsSeekPlan hnone hf hlo hhi, hf]
          rfl
  | elsewhere => exact hfile.elim

/-- A descriptor that is not one of another driver. -/
theorem Refers.resolved (h : Refers volume k fd r) (hfile : r.OnFile P) :
    fdResolve k.machine.table fd = none ∨ ∃ vref, fdResolve k.machine.table fd = some vref ∧
      (vref.driver = none ∨
        vref.driver = some volume ∧ (k.dirs vref.state = none → P vref.state)) := by
  cases h with
  | unbound h => exact .inl h
  | nothing h hdriver => exact .inr ⟨_, h, .inl hdriver⟩
  | directory h hdriver hdir =>
      refine .inr ⟨_, h, .inr ⟨hdriver, ?_⟩⟩
      rw [hdir]
      exact nofun
  | file h hdriver _ => exact .inr ⟨_, h, .inr ⟨hdriver, fun _ => hfile⟩⟩
  | elsewhere => exact hfile.elim

/-- The calls that a call makes of the volume may be made. -/
theorem FileCall.Served.admits (hvolume : drivers volume = fatfs) {call : FileCall}
    (h : call.Served g volume (k, c)) :
    (call.plan drivers k).Admits (Store.call g) (Store.Served g) c := by
  cases call with
  | read fd buffer bytes =>
      obtain ⟨hlo, hhi, hfile⟩ := h
      have hsize : toWord bytes < 2 ^ 32 := by
        rw [toWord_of_nonneg hlo hhi]
        omega
      rw [FileCall.plan, Plan.admits_map, sysRead]
      rcases (k.refers volume fd).resolved hfile with h | ⟨vref, h, hdriver | ⟨hdriver, hopen⟩⟩
      · rw [h]
        trivial
      · rw [h]
        dsimp only
        rw [vfsRead, hdriver]
        trivial
      · rw [h]
        dsimp only
        rw [vfsRead, hdriver]
        dsimp only
        rw [hvolume]
        exact admits_fatfsRead hopen buffer hsize
  | write fd buffer bytes =>
      obtain ⟨hlo, hhi, hfile⟩ := h
      rw [FileCall.plan, Plan.admits_map, sysWrite]
      rcases (k.refers volume fd).resolved hfile with h | ⟨vref, h, hdriver | ⟨hdriver, hopen⟩⟩
      · rw [h]
        trivial
      · rw [h]
        dsimp only
        rw [vfsWrite, hdriver]
        trivial
      · rw [h]
        dsimp only
        rw [vfsWrite, hdriver]
        dsimp only
        rw [hvolume]
        rw [← toWord_of_nonneg hlo hhi] at hopen
        exact admits_fatfsWrite hopen buffer
  | lseek fd offset whence =>
      rw [FileCall.plan, Plan.admits_map, sysLseek]
      rcases (k.refers volume (toInt fd)).resolved h with
        h | ⟨vref, h, hdriver | ⟨hdriver, hopen⟩⟩
      · rw [h]
        trivial
      · rw [h]
        dsimp only
        rw [vfsSeekFrom, hdriver]
        split <;>
          trivial
      · rw [h]
        dsimp only
        rw [vfsSeekFrom, hdriver]
        split
        · trivial
        · dsimp only
          rw [hvolume]
          refine admits_fatfsSeekPlan fun hnone => ?_
          obtain ⟨file, hfile, hlo, hhi, -⟩ := hopen hnone
          exact ⟨file, hfile, hlo, hhi⟩
  | tick fuel oldStack =>
      obtain ⟨switched, h⟩ := h
      dsimp only at h
      rw [FileCall.plan, h]
      trivial

/-- A file that is open on the volume is one of the files of bytes. -/
theorem holds_of_handle {chain dirs : ℕ → List ℕ} (h : Represents g c t chain dirs) {state : ℕ}
    {file : FatFile} (hfile : c.handle state = some file) :
    ∃ f, t state = some f ∧ Holds g c.state file f (chain state) (dirs state) := by
  have hholds := h.holds state
  rw [hfile] at hholds
  generalize t state = own at hholds ⊢
  cases hholds with
  | some hholds => exact ⟨_, rfl, hholds⟩

/-- On files of bytes a call does what it should. -/
theorem FileCall.Served.onBytes (hvolume : drivers volume = fatfs) {chain dirs : ℕ → List ℕ}
    (hrel : Represents g c t chain dirs) {call : FileCall} (h : call.Served g volume (k, c)) :
    above (FileCall.plan drivers) onFiles (k, t) call = call.onBytes volume (k, t) := by
  cases call with
  | read fd buffer bytes =>
      obtain ⟨hlo, hhi, hfile⟩ := h
      refine above_read hvolume (k.refers volume fd) (hfile.mono ?_) buffer hlo hhi
      rintro state ⟨file, hopen⟩
      exact (holds_of_handle hrel hopen).imp fun f => And.left
  | write fd buffer bytes =>
      obtain ⟨hlo, hhi, hfile⟩ := h
      refine above_write hvolume (k.refers volume fd) (hfile.mono ?_) buffer hlo hhi
      rintro state ⟨file, hopen, -⟩
      exact (holds_of_handle hrel hopen).imp fun f => And.left
  | lseek fd offset whence =>
      refine above_lseek hvolume (k.refers volume (toInt fd)) (h.mono ?_)
      rintro state ⟨file, hopen, hlo, -, hhi⟩
      obtain ⟨f, hf, hholds⟩ := holds_of_handle hrel hopen
      rw [← hholds.position, ← hholds.size] at hlo hhi
      exact ⟨f, hf, hlo, hhi⟩
  | tick fuel oldStack =>
      obtain ⟨switched, h⟩ := h
      unfold above FileCall.plan FileCall.onBytes
      dsimp only at h ⊢
      rw [h]
      rfl

/-! ## Runs -/

/-- A kernel with its files on a volume serves calls like one with files of bytes. -/
theorem fileCalls_simulate (hg : Geometry g) (hfat : 3 * g.secPerClus ≤ g.fatSz32)
    (hvolume : drivers volume = fatfs) (dirs : ℕ → List ℕ) :
    Simulates (above (FileCall.plan drivers) (Store.call g)) (FileCall.onBytes volume)
      (fun s call => call.Served g volume s) fun s t =>
        s.1 = t.1 ∧ ∃ chain, Represents g s.2 t.2 chain dirs := by
  rintro ⟨k, c⟩ ⟨k', t⟩ call ⟨rfl, chain, hrel⟩ hserved
  have hsim := (store_simulates hg hfat dirs).above (FileCall.plan drivers)
  obtain ⟨b, s', t', hstep, hmid, hrel'⟩ :=
    hsim (k, c) (k, t) call ⟨rfl, chain, hrel⟩ (hserved.admits hvolume)
  rw [hserved.onBytes hvolume hrel] at hmid
  exact ⟨b, s', t', hstep, hmid, hrel'⟩

end

/-! ## Two processes -/

/-- Two processes, each with one of the files of `twoFiles` behind its descriptor 1. -/
def twoProcesses : KernelState where
  machine :=
    { table :=
        { generalProcessTable := fun i =>
            { live := true
              stack := 0x1000 * (i + 1)
              processMemory := 0
              state := .runnable
              parentIndex := -1
              files := i
              fileExists := i
              cwd := ⟨0, -1, none, 0⟩
              exe := ⟨0, -1, none, 0⟩
              mount := 0
              processSegmentsIndex := 1 }
          processCount := 2
          processTableSize := 2
          processRunning := 0
          filesAt := fun process _ => ⟨0, -1, some 0, process⟩
          fileExistsAt := fun _ fd => fd = 0
          freed := [] }
      below := fun _ =>
        { live := false
          stack := 0
          processMemory := 0
          state := .runnable
          parentIndex := 0
          files := 0
          fileExists := 0
          cwd := ⟨0, -1, none, 0⟩
          exe := ⟨0, -1, none, 0⟩
          mount := 0
          processSegmentsIndex := 0 } }
  dirs := fun _ => none

end Neos.Syscall
