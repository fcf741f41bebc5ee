import Neos.Syscall.Model
import Neos.Vfs.Open

/-!
# Success and failure of opening

`vfs_open` reports errors with two signs: drivers return negated codes, the
checks of names return positive ones.  Its callers take only negative results
for errors.
-/

namespace Neos.Syscall

open Vfs Scheduler

variable {W : Type}

/-! ## What opening promises -/

/-- The path is acceptable, the first `vfs_update` succeeds, and so does every
component of the path. -/
def Succeeds (m : Mounts W) (relation : VRef) (path : CString) (flags : ℕ) (w : W) : Prop :=
  Acceptable (names path) ∧ ∃ updated, start m relation path w = some updated ∧
    updated.res = 0 ∧ ∃ o, enterAll m (plan flags (names path)) updated.vref updated.world =
      some o ∧ o.res = 0

/-- A scheduled step returns a negative code. -/
def FailsInStep (m : Mounts W) (relation : VRef) (path : CString) (flags : ℕ) (w : W) : Prop :=
  ∃ updated, start m relation path w = some updated ∧
    ∃ o, enterAll m (schedule flags 0 none (names path)).1 updated.vref updated.world =
      some o ∧ o.res < 0

/-- `vfs_open` returns `0` when everything succeeds and a negative value
otherwise, and the system calls install a descriptor only in the first case. -/
structure OpenContract (m : Mounts W) (relation : VRef) (path : CString) (flags : ℕ) (w : W) :
    Prop where
  result : ∃ o, vfsOpen m relation path flags w = some o ∧
    (Succeeds m relation path flags w → o.res = 0) ∧
    (¬ Succeeds m relation path flags w → o.res < 0)
  sysOpen : ∀ s process o, fdCwd s process = relation →
    sysOpen m s process path flags w = some o → 0 < o.res → Succeeds m relation path flags w
  sysOpenat : ∀ s fd o, fdResolve s fd = some relation →
    sysOpenat m s fd path flags w = some o → 0 < o.res → Succeeds m relation path flags w

/-! ## Installing descriptors -/

/-- `fd_open` changes the table only when it returns a descriptor, and it does
so only for a result of `vfs_open` that is not negative. -/
theorem fdOpen_cases {m : Mounts W} {s : ProcessTable} {parent : VRef} {filename : CString}
    {flags : ℕ} {w : W} {r : Return W} (h : fdOpen m s parent filename flags w = some r) :
    ∃ o, vfsOpen m parent filename flags w = some o ∧ r.world = o.world ∧
      ((o.res < 0 ∧ r.res = o.res ∧ r.table = s) ∨
        (0 ≤ o.res ∧ r.table = (schedulerFput s (schedulerGetCurrentPid s) o.vref).2 ∧
          (((schedulerFput s (schedulerGetCurrentPid s) o.vref).1 = 0 ∧ r.res = -linuxEmfile) ∨
            ((schedulerFput s (schedulerGetCurrentPid s) o.vref).1 ≠ 0 ∧
              r.res = (schedulerFput s (schedulerGetCurrentPid s) o.vref).1)))) := by
  obtain ⟨o, hopen, h⟩ := Option.bind_eq_some_iff.mp h
  refine ⟨o, hopen, ?_⟩
  split at h
  · next hneg =>
      cases h
      exact ⟨rfl, Or.inl ⟨hneg, rfl, rfl⟩⟩
  · next hneg =>
      dsimp only at h
      split at h
      · next hfull =>
          cases h
          exact ⟨rfl, Or.inr ⟨Int.not_lt.mp hneg, rfl, Or.inl ⟨hfull, rfl⟩⟩⟩
      · next hput =>
          cases h
          exact ⟨rfl, Or.inr ⟨Int.not_lt.mp hneg, rfl, Or.inr ⟨hput, rfl⟩⟩⟩

/-- A descriptor is installed only for a result that is not negative. -/
theorem fdOpen_installs {m : Mounts W} {s : ProcessTable} {parent : VRef} {filename : CString}
    {flags : ℕ} {w : W} {r : Return W} (h : fdOpen m s parent filename flags w = some r)
    (hres : 0 < r.res) : ∃ o, vfsOpen m parent filename flags w = some o ∧ 0 ≤ o.res := by
  obtain ⟨o, hopen, -, ⟨hneg, heq, -⟩ | ⟨hnonneg, -, -⟩⟩ := fdOpen_cases h
  · omega
  · exact ⟨o, hopen, hnonneg⟩

/-! ## When the promise is kept -/

section

variable {m : Mounts W} {relation : VRef} {path : CString} {flags : ℕ} {w : W}

/-- The result of `vfs_open` in terms of its steps. -/
theorem vfsOpen_some {o : Outcome W} (h : vfsOpen m relation path flags w = some o) :
    ∃ updated walked, start m relation path w = some updated ∧
      enterAll m (schedule flags 0 none (names path)).1 updated.vref updated.world =
        some walked ∧
      o = walked.finish (schedule flags 0 none (names path)).2 := by
  rw [vfsOpen_eq] at h
  obtain ⟨updated, hstart, h⟩ := Option.bind_eq_some_iff.mp h
  obtain ⟨walked, hwalk, rfl⟩ := Option.map_eq_some_iff.mp h
  exact ⟨updated, walked, hstart, hwalk, rfl⟩

theorem Succeeds.vfsOpen_eq (h : Succeeds m relation path flags w) :
    ∃ o, vfsOpen m relation path flags w = some o ∧ o.res = 0 := by
  obtain ⟨hacc, updated, hstart, -, o, hwalk, hres⟩ := h
  refine ⟨o.finish 0, ?_, ?_⟩
  · rw [Vfs.vfsOpen_eq, hstart, Option.bind_some, hacc.schedule_eq, hwalk]
    rfl
  · rw [Outcome.finish_of_eq hres]

theorem FailsInStep.vfsOpen_eq (h : FailsInStep m relation path flags w) :
    ∃ o, vfsOpen m relation path flags w = some o ∧ o.res < 0 := by
  obtain ⟨updated, hstart, o, hwalk, hres⟩ := h
  refine ⟨o.finish (schedule flags 0 none (names path)).2, ?_, ?_⟩
  · rw [Vfs.vfsOpen_eq, hstart, Option.bind_some, hwalk]
    rfl
  · rwa [Outcome.finish_of_ne (by omega)]

/-- A negative result comes from a step. -/
theorem failsInStep_of_neg {o : Outcome W} (h : vfsOpen m relation path flags w = some o)
    (hres : o.res < 0) : FailsInStep m relation path flags w := by
  obtain ⟨updated, walked, hstart, hwalk, rfl⟩ := vfsOpen_some h
  refine ⟨updated, hstart, walked, hwalk, ?_⟩
  by_cases hzero : walked.res = 0
  · rw [Outcome.finish_of_eq hzero] at hres
    have := schedule_code_nonneg (names path) flags
    dsimp only at hres
    omega
  · rwa [Outcome.finish_of_ne hzero] at hres

/-- A call whose result tells success from failure keeps the whole promise. -/
theorem openContract_of_result {o : Outcome W} (h : vfsOpen m relation path flags w = some o)
    (h₁ : Succeeds m relation path flags w → o.res = 0)
    (h₂ : ¬ Succeeds m relation path flags w → o.res < 0) :
    OpenContract m relation path flags w := by
  have hinstall : ∀ s r, fdOpen m s relation path flags w = some r → 0 < r.res →
      Succeeds m relation path flags w := by
    intro s r hcall hres
    obtain ⟨o', hopen, hnonneg⟩ := fdOpen_installs hcall hres
    rw [h, Option.some_inj] at hopen
    subst hopen
    by_contra hcon
    have := h₂ hcon
    omega
  refine ⟨⟨o, h, h₁, h₂⟩, ?_, ?_⟩
  · rintro s process r rfl hcall hres
    exact hinstall s r hcall hres
  · intro s fd r hfd hcall hres
    unfold Syscall.sysOpenat at hcall
    rw [hfd] at hcall
    exact hinstall s r hcall hres

end

/-- Opening keeps its promise exactly when everything succeeds or a step fails
with a negative code; it fails to when a name is too long, when there are too
many names, when a driver returns a positive code, or when only the first
`vfs_update` fails. -/
theorem openContract_iff (m : Mounts W) (relation : VRef) (path : CString) (flags : ℕ)
    (w : W) :
    OpenContract m relation path flags w ↔
      Succeeds m relation path flags w ∨ FailsInStep m relation path flags w := by
  constructor
  · rintro ⟨⟨o, hopen, -, hneg⟩, -, -⟩
    by_cases hs : Succeeds m relation path flags w
    · exact Or.inl hs
    · exact Or.inr (failsInStep_of_neg hopen (hneg hs))
  · rintro (hs | hf)
    · obtain ⟨o, hopen, hres⟩ := hs.vfsOpen_eq
      exact openContract_of_result hopen (fun _ => hres) fun hno => absurd hs hno
    · obtain ⟨o, hopen, hres⟩ := hf.vfsOpen_eq
      refine openContract_of_result hopen (fun hs => ?_) fun _ => hres
      obtain ⟨o', hopen', hres'⟩ := hs.vfsOpen_eq
      rw [hopen, Option.some_inj] at hopen'
      rw [hopen', hres']

/-! ## A name that is too long -/

/-- A driver that accepts everything. -/
def acceptingDriver : FilesystemDriver Unit where
  root := fun _ w => (0, 1, w)
  clone := fun _ _ w => (0, 1, w)
  openPart := fun v _ _ w => (0, v.state, w)
  close := fun v w => (0, v.state, w)
  remove := fun v _ w => (0, v.state, w)
  stat := fun v w => (0, v.state, w)

/-- A tree of one node with that driver. -/
def acceptingRoot : Mounts Unit where
  nodes := [⟨none, none, 0, some 0, []⟩]
  drivers := fun _ => acceptingDriver

/-- A path of one name of 300 bytes. -/
def longPath : CString := slash :: List.replicate 300 97

/-- A process at the root directory. -/
def someProcess : ProcessDescriptor :=
  ⟨true, 0, 0, .runnable, -1, 1, 1, vfsRoot, vfsRoot, 0, 1⟩

/-- One process with an empty descriptor table, about to open a file. -/
def oneProcess : ProcessTable where
  generalProcessTable := fun _ => someProcess
  processCount := 1
  processTableSize := 2
  processRunning := 0
  filesAt := fun _ _ => vfsRoot
  fileExistsAt := fun _ _ => false
  freed := []

/-- A name that is too long makes `vfs_open` return a positive code, and
`sys_open` installs a descriptor for it. -/
theorem openContract_fails_longPath :
    (vfsOpen acceptingRoot vfsRoot longPath 0 ()).map Outcome.res = some linuxEnametoolong ∧
      (sysOpen acceptingRoot oneProcess someProcess longPath 0 ()).map Return.res = some 1 ∧
      ¬ OpenContract acceptingRoot vfsRoot longPath 0 () := by
  have hopen : (vfsOpen acceptingRoot vfsRoot longPath 0 ()).map Outcome.res =
      some linuxEnametoolong := by decide +kernel
  refine ⟨hopen, by decide +kernel, ?_⟩
  rintro ⟨⟨o, hcall, hzero, hneg⟩, -, -⟩
  rw [hcall, Option.map_some, Option.some_inj] at hopen
  have hpos : 0 < o.res := by
    rw [hopen]
    decide
  by_cases hs : Succeeds acceptingRoot vfsRoot longPath 0 ()
  · have := hzero hs
    omega
  · have := hneg hs
    omega

end Neos.Syscall
