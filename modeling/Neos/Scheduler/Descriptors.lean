import Neos.Scheduler.Model
import Mathlib.Logic.Function.Basic

/-!
# Descriptor tables as finite maps

`scheduler_fput`, `scheduler_fget` and `scheduler_fremove` should treat the two
arrays of each process as a finite map from descriptors to references.  They do
as long as nothing is unbound: `scheduler_fremove` clears the pointer to the
presence array instead of an entry of it.
-/

namespace Neos.Scheduler

open Vfs

/-! ## Finite maps -/

/-- The descriptors of all processes: which reference each one is bound to. -/
abbrev Bindings := ℤ → ℤ → Option VRef

/-- A descriptor number. -/
def IsFd (fd : ℤ) : Prop := 1 ≤ fd ∧ fd ≤ maxFilesPerProcess

instance (fd : ℤ) : Decidable (IsFd fd) := inferInstanceAs (Decidable (_ ∧ _))

/-- The lowest descriptor that is not bound. -/
structure LowestUnused (m : ℤ → Option VRef) (fd : ℤ) : Prop where
  isFd : IsFd fd
  unused : m fd = none
  below : ∀ lower, IsFd lower → lower < fd → m lower ≠ none

/-- Change one binding. -/
def Bindings.set (b : Bindings) (pid fd : ℤ) (vref : Option VRef) : Bindings :=
  Function.update b pid (Function.update (b pid) fd vref)

/-- The operations on descriptors. -/
inductive DescriptorOp
  | fput (pid : ℤ) (vref : VRef)
  | fget (pid fd : ℤ)
  | fremove (pid fd : ℤ)

/-- What they return. -/
inductive Answer
  | code (result : ℤ)
  | reference (vref : Option VRef)

/-- How an operation on finite maps answers, and the maps it leaves behind.  A
process that is not live has no descriptors and gets none. -/
inductive Behaves (live : ℤ → Prop) (b : Bindings) : DescriptorOp → Answer → Bindings → Prop
  | put {pid fd : ℤ} {vref : VRef} (hlive : live pid) (h : LowestUnused (b pid) fd) :
      Behaves live b (.fput pid vref) (.code fd) (b.set pid fd (some vref))
  | full {pid : ℤ} {vref : VRef} (h : live pid → ∀ fd, IsFd fd → b pid fd ≠ none) :
      Behaves live b (.fput pid vref) (.code 0) b
  | get {pid fd : ℤ} : Behaves live b (.fget pid fd) (.reference (b pid fd)) b
  | remove {pid fd : ℤ} (h : b pid fd ≠ none) :
      Behaves live b (.fremove pid fd) (.code 0) (b.set pid fd none)
  | unbound {pid fd : ℤ} (h : b pid fd = none) :
      Behaves live b (.fremove pid fd) (.code 1) b

/-! ## The process table -/

/-- The process with a given identifier. -/
def ProcessTable.process (s : ProcessTable) (pid : ℤ) : ProcessDescriptor :=
  s.generalProcessTable (pid - 1).toNat

/-- A live process. -/
def LivePid (s : ProcessTable) (pid : ℤ) : Prop := schedulerPidInvalid s pid = false

instance (s : ProcessTable) (pid : ℤ) : Decidable (LivePid s pid) :=
  inferInstanceAs (Decidable (_ = _))

/-- The bindings a table shows. -/
def bindings (s : ProcessTable) : Bindings := fun pid fd => schedulerFget s pid fd

/-- One operation of the code. -/
def DescriptorOp.perform (s : ProcessTable) : DescriptorOp → Answer × ProcessTable
  | .fput pid vref => (.code (schedulerFput s pid vref).1, (schedulerFput s pid vref).2)
  | .fget pid fd => (.reference (schedulerFget s pid fd), s)
  | .fremove pid fd => (.code (schedulerFremove s pid fd).1, (schedulerFremove s pid fd).2)

/-- Every operation of a run behaves like the one on finite maps. -/
def ActsAsMaps : ProcessTable → List DescriptorOp → Prop
  | _, [] => True
  | s, op :: ops =>
      Behaves (LivePid s) (bindings s) op (op.perform s).1 (bindings (op.perform s).2) ∧
        ActsAsMaps (op.perform s).2 ops

/-- Live processes have arrays of their own. -/
def OwnArrays (s : ProcessTable) : Prop :=
  ∀ pid pid', LivePid s pid → LivePid s pid' → pid ≠ pid' →
    (s.process pid).files ≠ (s.process pid').files ∧
      (s.process pid).fileExists ≠ (s.process pid').fileExists

/-- An operation that removes nothing, unless the low memory, which is taken for
the presence array afterwards, is nobody's array and happens to contain what is
left. -/
def Harmless (s : ProcessTable) : DescriptorOp → Prop
  | .fput _ _ => True
  | .fget _ _ => True
  | .fremove pid fd =>
      bindings s pid fd ≠ none →
        (∀ i < maxFilesPerProcess, s.fileExistsAt 0 i =
          (s.fileExistsAt (s.process pid).fileExists i && decide ((i : ℤ) ≠ fd - 1))) ∧
          ∀ other, LivePid s other → other ≠ pid → (s.process other).fileExists ≠ 0

/-- A run of harmless operations. -/
def HarmlessRun : ProcessTable → List DescriptorOp → Prop
  | _, [] => True
  | s, op :: ops => Harmless s op ∧ HarmlessRun (op.perform s).2 ops

section

variable {s s' : ProcessTable} {pid fd : ℤ}

theorem LivePid.bounds (h : LivePid s pid) : 1 ≤ pid ∧ pid ≤ s.processCount := by
  unfold LivePid schedulerPidInvalid at h
  split at h
  · cases h
  · split at h
    · cases h
    · exact ⟨by omega, by omega⟩

theorem LivePid.slot_ne {pid' : ℤ} (h : LivePid s pid) (h' : LivePid s pid')
    (hne : pid ≠ pid') : (pid - 1).toNat ≠ (pid' - 1).toNat := by
  have := h.bounds
  have := h'.bounds
  omega

/-- The reference behind a descriptor of a live process. -/
theorem bindings_of_live (h : LivePid s pid) (fd : ℤ) :
    bindings s pid fd =
      if IsFd fd ∧ s.fileExistsAt (s.process pid).fileExists (fd - 1).toNat = true then
        some (s.filesAt (s.process pid).files (fd - 1).toNat)
      else none := by
  unfold bindings schedulerFget
  rw [h, if_neg Bool.false_ne_true]
  apply if_congr _ rfl rfl
  unfold fileOpen IsFd ProcessTable.process
  rw [decide_eq_true_iff]
  constructor
  · rintro ⟨h₁, h₂, h₃⟩
    exact ⟨⟨by omega, by omega⟩, h₃⟩
  · rintro ⟨⟨h₁, h₂⟩, h₃⟩
    exact ⟨by omega, by omega, h₃⟩

theorem bindings_of_not_live (h : ¬ LivePid s pid) (fd : ℤ) : bindings s pid fd = none := by
  unfold bindings schedulerFget
  rw [if_pos]
  simpa [LivePid] using h

theorem bindings_eq_none_iff (h : LivePid s pid) (hfd : IsFd fd) :
    bindings s pid fd = none ↔
      s.fileExistsAt (s.process pid).fileExists (fd - 1).toNat = false := by
  rw [bindings_of_live h]
  simp [hfd]

/-! ## Storing a reference -/

theorem freeFile_eq_none {fileExists : ℕ} :
    ∀ {fuel i : ℕ}, freeFile s fileExists fuel i = none →
      ∀ k, i ≤ k → k < i + fuel → s.fileExistsAt fileExists k = true
  | 0, _, _, k, h₁, h₂ => by omega
  | fuel + 1, i, h, k, h₁, h₂ => by
      rw [freeFile] at h
      split at h
      · cases h
      · next hused =>
          rcases Nat.eq_or_lt_of_le h₁ with rfl | hlt
          · simpa using hused
          · exact freeFile_eq_none h k hlt (by omega)

theorem freeFile_eq_some {fileExists k : ℕ} :
    ∀ {fuel i : ℕ}, freeFile s fileExists fuel i = some k →
      (i ≤ k ∧ k < i + fuel) ∧ s.fileExistsAt fileExists k = false ∧
        ∀ j, i ≤ j → j < k → s.fileExistsAt fileExists j = true
  | 0, _, h => by cases h
  | fuel + 1, i, h => by
      rw [freeFile] at h
      split at h
      · next hfree =>
          rw [Option.some_inj] at h
          subst h
          exact ⟨⟨Nat.le_refl _, by omega⟩, hfree, by omega⟩
      · next hused =>
          obtain ⟨⟨h₁, h₂⟩, hfree, hbelow⟩ := freeFile_eq_some h
          refine ⟨⟨by omega, by omega⟩, hfree, ?_⟩
          intro j hj hjk
          rcases Nat.eq_or_lt_of_le hj with rfl | hlt
          · simpa using hused
          · exact hbelow j hlt hjk

/-- A table in which one entry of the arrays of a process was written. -/
def ProcessTable.write (s : ProcessTable) (pid : ℤ) (i : ℕ) (vref : VRef) : ProcessTable :=
  { s with
    filesAt := setAt s.filesAt (s.process pid).files i vref
    fileExistsAt := setAt s.fileExistsAt (s.process pid).fileExists i true }

theorem schedulerFput_of_live (h : LivePid s pid) (vref : VRef) :
    schedulerFput s pid vref =
      match freeFile s (s.process pid).fileExists maxFilesPerProcess 0 with
      | none => (0, s)
      | some i => ((i : ℤ) + 1, s.write pid i vref) := by
  unfold schedulerFput
  rw [h, if_neg Bool.false_ne_true]
  rfl

theorem schedulerFput_cases (h : LivePid s pid) (vref : VRef) :
    (schedulerFput s pid vref = (0, s) ∧
        freeFile s (s.process pid).fileExists maxFilesPerProcess 0 = none) ∨
      ∃ i, freeFile s (s.process pid).fileExists maxFilesPerProcess 0 = some i ∧
        schedulerFput s pid vref = ((i : ℤ) + 1, s.write pid i vref) := by
  rw [schedulerFput_of_live h]
  cases hfree : freeFile s (s.process pid).fileExists maxFilesPerProcess 0 with
  | none => exact Or.inl ⟨rfl, rfl⟩
  | some i => exact Or.inr ⟨i, rfl, rfl⟩

theorem livePid_write (i : ℕ) (vref : VRef) (pid' : ℤ) :
    LivePid (s.write pid i vref) pid' ↔ LivePid s pid' := Iff.rfl

theorem bindings_write (hown : OwnArrays s) (h : LivePid s pid) {i : ℕ}
    (hi : i < maxFilesPerProcess) (vref : VRef) :
    bindings (s.write pid i vref) = (bindings s).set pid (i + 1) (some vref) := by
  funext pid' fd
  have hslot : ∀ p, (s.write pid i vref).process p = s.process p := fun _ => rfl
  by_cases hpid : pid' = pid
  · subst hpid
    rw [Bindings.set, Function.update_self,
      bindings_of_live ((livePid_write i vref pid').mpr h), hslot]
    by_cases hfd : fd = i + 1
    · subst hfd
      have hfd' : IsFd ((i : ℤ) + 1) := ⟨by omega, by omega⟩
      simp [ProcessTable.write, setAt, hfd']
    · rw [Function.update_of_ne hfd, bindings_of_live h]
      by_cases hfd' : IsFd fd
      · have hne : (fd - 1).toNat ≠ i := by
          have := hfd'.1
          omega
        simp only [ProcessTable.write, setAt, hne, and_false, if_false]
      · rw [if_neg fun hand => hfd' hand.1, if_neg fun hand => hfd' hand.1]
  · rw [Bindings.set, Function.update_of_ne hpid]
    by_cases hlive : LivePid s pid'
    · obtain ⟨hfiles, hexists⟩ := hown pid' pid hlive h hpid
      rw [bindings_of_live hlive, bindings_of_live ((livePid_write i vref pid').mpr hlive), hslot]
      simp only [ProcessTable.write, setAt, hfiles, hexists, false_and, if_false]
    · rw [bindings_of_not_live hlive,
        bindings_of_not_live fun hw => hlive ((livePid_write i vref pid').mp hw)]

theorem OwnArrays.write (hown : OwnArrays s) (i : ℕ) (vref : VRef) :
    OwnArrays (s.write pid i vref) := hown

theorem behaves_fput (hown : OwnArrays s) (pid : ℤ) (vref : VRef) :
    Behaves (LivePid s) (bindings s) (.fput pid vref) (.code (schedulerFput s pid vref).1)
        (bindings (schedulerFput s pid vref).2) ∧
      OwnArrays (schedulerFput s pid vref).2 := by
  by_cases h : LivePid s pid
  · rcases schedulerFput_cases h vref with ⟨heq, hfree⟩ | ⟨i, hfree, heq⟩
    · rw [heq]
      refine ⟨Behaves.full fun _ fd hfd hnone => ?_, hown⟩
      rw [bindings_eq_none_iff h hfd] at hnone
      have hused := freeFile_eq_none hfree (fd - 1).toNat (Nat.zero_le _) (by
        have := hfd.1
        have := hfd.2
        omega)
      rw [hused] at hnone
      cases hnone
    · obtain ⟨⟨-, hi⟩, hunused, hbelow⟩ := freeFile_eq_some hfree
      rw [heq]
      dsimp only
      rw [bindings_write hown h (by omega)]
      have hfd : IsFd ((i : ℤ) + 1) := ⟨by omega, by omega⟩
      refine ⟨Behaves.put h ⟨hfd, ?_, ?_⟩, hown.write i vref⟩
      · rw [bindings_eq_none_iff h hfd]
        simpa using hunused
      · intro lower hlower hlt hnone
        rw [bindings_eq_none_iff h hlower,
          hbelow (lower - 1).toNat (Nat.zero_le _) (by
            have := hlower.1
            omega)] at hnone
        cases hnone
  · have heq : schedulerFput s pid vref = (0, s) := by
      unfold schedulerFput
      rw [if_pos (by simpa [LivePid] using h)]
    rw [heq]
    exact ⟨Behaves.full fun hlive => absurd hlive h, hown⟩

/-! ## Removing a reference -/

/-- The table after a descriptor was removed: the process has lost the pointer
to its presence array. -/
def ProcessTable.forget (s : ProcessTable) (pid : ℤ) : ProcessTable :=
  s.setSlot (pid - 1).toNat { s.process pid with fileExists := 0 }

theorem schedulerFremove_of_none (h : bindings s pid fd = none) :
    schedulerFremove s pid fd = (1, s) := by
  unfold bindings schedulerFget at h
  unfold schedulerFremove
  split
  · rfl
  · next hlive =>
      rw [if_neg hlive] at h
      dsimp only at h ⊢
      split
      · next hopen =>
          rw [if_pos hopen] at h
          cases h
      · rfl

theorem schedulerFremove_of_bound (h : bindings s pid fd ≠ none) :
    LivePid s pid ∧ schedulerFremove s pid fd = (0, s.forget pid) := by
  unfold bindings schedulerFget at h
  unfold schedulerFremove
  split at h
  · exact absurd rfl h
  · next hlive =>
      dsimp only at h ⊢
      split at h
      · next hopen =>
          rw [if_neg hlive, if_pos hopen]
          exact ⟨by simpa [LivePid] using hlive, rfl⟩
      · exact absurd rfl h

theorem process_forget (pid' : ℤ) (h : LivePid s pid) (h' : LivePid s pid') :
    (s.forget pid).process pid' =
      if pid' = pid then { s.process pid with fileExists := 0 } else s.process pid' := by
  unfold ProcessTable.forget ProcessTable.setSlot
  by_cases hpid : pid' = pid
  · rw [if_pos hpid, hpid]
    exact if_pos rfl
  · rw [if_neg hpid]
    exact if_neg (h'.slot_ne h hpid)

theorem livePid_forget (pid pid' : ℤ) : LivePid (s.forget pid) pid' ↔ LivePid s pid' := by
  have hlive : ∀ i, ((s.forget pid).generalProcessTable i).live =
      (s.generalProcessTable i).live := by
    intro i
    change (if i = (pid - 1).toNat then { s.process pid with fileExists := 0 }
      else s.generalProcessTable i).live = _
    split
    · next hi =>
        rw [hi]
        rfl
    · rfl
  unfold LivePid schedulerPidInvalid
  rw [hlive]
  rfl

/-- The bindings after a descriptor was removed are the right ones exactly when
the low memory contains what is left. -/
theorem bindings_forget_iff (h : LivePid s pid) (hfd : IsFd fd) :
    bindings (s.forget pid) = (bindings s).set pid fd none ↔
      ∀ i < maxFilesPerProcess, s.fileExistsAt 0 i =
        (s.fileExistsAt (s.process pid).fileExists i && decide ((i : ℤ) ≠ fd - 1)) := by
  have hleft : ∀ fd', bindings (s.forget pid) pid fd' =
      if IsFd fd' ∧ s.fileExistsAt 0 (fd' - 1).toNat = true then
        some (s.filesAt (s.process pid).files (fd' - 1).toNat)
      else none := by
    intro fd'
    rw [bindings_of_live ((livePid_forget pid pid).mpr h), process_forget pid h h, if_pos rfl]
    rfl
  constructor
  · intro heq i hi
    have hfd' : IsFd ((i : ℤ) + 1) := ⟨by omega, by omega⟩
    have hat := congrFun (congrFun heq pid) ((i : ℤ) + 1)
    rw [hleft, Bindings.set, Function.update_self] at hat
    simp only [hfd', true_and, show ((i : ℤ) + 1 - 1).toNat = i by omega] at hat
    by_cases hi' : (i : ℤ) = fd - 1
    · rw [show (i : ℤ) + 1 = fd by omega, Function.update_self] at hat
      simpa [hi'] using hat
    · rw [Function.update_of_ne (by omega), bindings_of_live h] at hat
      simp only [hfd', true_and, show ((i : ℤ) + 1 - 1).toNat = i by omega] at hat
      rw [decide_eq_true (show (i : ℤ) ≠ fd - 1 from hi'), Bool.and_true]
      rw [Bool.eq_iff_iff]
      constructor
      · intro htrue
        by_contra hfalse
        simp [htrue, hfalse] at hat
      · intro htrue
        by_contra hfalse
        simp [htrue, hfalse] at hat
  · intro hlow
    funext pid' fd'
    by_cases hpid : pid' = pid
    · subst hpid
      rw [hleft, Bindings.set, Function.update_self]
      by_cases hfd' : IsFd fd'
      · have hi := hlow (fd' - 1).toNat (by
          have := hfd'.1
          have := hfd'.2
          omega)
        by_cases hne : fd' = fd
        · subst hne
          rw [Function.update_self, if_neg]
          rintro ⟨-, htrue⟩
          rw [hi, decide_eq_false (by
            have := hfd'.1
            omega), Bool.and_false] at htrue
          cases htrue
        · rw [Function.update_of_ne hne, bindings_of_live h, hi, decide_eq_true (by
            have := hfd'.1
            omega), Bool.and_true]
      · rw [if_neg fun hand => hfd' hand.1, Function.update_of_ne fun heq : fd' = fd => hfd' (heq ▸ hfd),
          bindings_of_live h, if_neg fun hand => hfd' hand.1]
    · rw [Bindings.set, Function.update_of_ne hpid]
      by_cases hlive : LivePid s pid'
      · rw [bindings_of_live ((livePid_forget pid pid').mpr hlive), bindings_of_live hlive,
          process_forget pid' h hlive, if_neg hpid]
        rfl
      · rw [bindings_of_not_live hlive,
          bindings_of_not_live fun hl => hlive ((livePid_forget pid pid').mp hl)]

theorem OwnArrays.forget (hown : OwnArrays s) (h : LivePid s pid)
    (hzero : ∀ other, LivePid s other → other ≠ pid → (s.process other).fileExists ≠ 0) :
    OwnArrays (s.forget pid) := by
  intro p q hp hq hpq
  rw [livePid_forget] at hp hq
  obtain ⟨hfiles, hexists⟩ := hown p q hp hq hpq
  rw [process_forget p h hp, process_forget q h hq]
  by_cases hpp : p = pid
  · have hqp : q ≠ pid := fun heq => hpq (hpp.trans heq.symm)
    rw [if_pos hpp, if_neg hqp]
    exact ⟨hpp ▸ hfiles, (hzero q hq hqp).symm⟩
  · rw [if_neg hpp]
    by_cases hqp : q = pid
    · rw [if_pos hqp]
      exact ⟨hqp ▸ hfiles, hzero p hp hpp⟩
    · rw [if_neg hqp]
      exact ⟨hfiles, hexists⟩

theorem isFd_of_bound (h : bindings s pid fd ≠ none) : LivePid s pid ∧ IsFd fd := by
  by_cases hlive : LivePid s pid
  · rw [bindings_of_live hlive] at h
    by_cases hfd : IsFd fd
    · exact ⟨hlive, hfd⟩
    · exact absurd (if_neg fun hand => hfd hand.1) h
  · exact absurd (bindings_of_not_live hlive fd) h

theorem behaves_fremove (hown : OwnArrays s) (pid fd : ℤ) (h : Harmless s (.fremove pid fd)) :
    Behaves (LivePid s) (bindings s) (.fremove pid fd) (.code (schedulerFremove s pid fd).1)
        (bindings (schedulerFremove s pid fd).2) ∧
      OwnArrays (schedulerFremove s pid fd).2 := by
  by_cases hbound : bindings s pid fd = none
  · rw [schedulerFremove_of_none hbound]
    exact ⟨Behaves.unbound hbound, hown⟩
  · obtain ⟨hlow, hzero⟩ := h hbound
    obtain ⟨hlive, hfd⟩ := isFd_of_bound hbound
    rw [(schedulerFremove_of_bound hbound).2]
    dsimp only
    rw [(bindings_forget_iff hlive hfd).mpr hlow]
    exact ⟨Behaves.remove hbound, hown.forget hlive hzero⟩

/-! ## Runs -/

/-- One harmless operation behaves like the one on finite maps. -/
theorem behaves_of_harmless (hown : OwnArrays s) (op : DescriptorOp) (h : Harmless s op) :
    Behaves (LivePid s) (bindings s) op (op.perform s).1 (bindings (op.perform s).2) ∧
      OwnArrays (op.perform s).2 := by
  cases op with
  | fput pid vref => exact behaves_fput hown pid vref
  | fget pid fd => exact ⟨Behaves.get, hown⟩
  | fremove pid fd => exact behaves_fremove hown pid fd h

/-- In a run of harmless operations the tables of all processes behave like
finite maps. -/
theorem actsAsMaps_of_harmless {ops : List DescriptorOp} (hown : OwnArrays s)
    (h : HarmlessRun s ops) : ActsAsMaps s ops := by
  induction ops generalizing s with
  | nil => trivial
  | cons op ops ih =>
      obtain ⟨hop, hops⟩ := h
      obtain ⟨hbehaves, hown'⟩ := behaves_of_harmless hown op hop
      exact ⟨hbehaves, ih hown' hops⟩

/-- An operation on one descriptor does not touch the others. -/
theorem Behaves.fremove_other {live : ℤ → Prop} {b b' : Bindings} {answer : Answer} {fd' : ℤ}
    (h : Behaves live b (.fremove pid fd) answer b') (hne : fd' ≠ fd) :
    b' pid fd' = b pid fd' := by
  cases h with
  | remove hbound =>
      rw [Bindings.set, Function.update_self, Function.update_of_ne hne]
  | unbound hnone => rfl

end

/-! ## One process -/

/-- One process with empty arrays. -/
def soleProcess : ProcessTable where
  generalProcessTable := fun _ =>
    ⟨true, 0, 0, .runnable, -1, 1, 1, vfsRoot, vfsRoot, 0, 1⟩
  processCount := 1
  processTableSize := 2
  processRunning := 0
  filesAt := fun _ _ => vfsRoot
  fileExistsAt := fun _ _ => false
  freed := []

theorem soleProcess_ownArrays : OwnArrays soleProcess := by
  intro pid pid' h h' hne
  have hcount : (soleProcess.processCount : ℤ) = 1 := rfl
  have := h.bounds
  have := h'.bounds
  omega

/-- Opening two descriptors, looking one up and removing one that is not
bound. -/
theorem actsAsMaps_of_harmless_soleProcess :
    ActsAsMaps soleProcess
      [.fput 1 vfsRoot, .fput 1 vfsRoot, .fget 1 2, .fremove 1 5] :=
  actsAsMaps_of_harmless soleProcess_ownArrays
    ⟨trivial, trivial, trivial, fun hbound => absurd (by decide +kernel) hbound, trivial⟩

/-- Removing the first of two descriptors takes away the second one as well. -/
theorem fremove_loses_others :
    OwnArrays soleProcess ∧
      ¬ ActsAsMaps soleProcess [.fput 1 vfsRoot, .fput 1 vfsRoot, .fremove 1 1] := by
  refine ⟨soleProcess_ownArrays, ?_⟩
  rintro ⟨-, -, h, -⟩
  have hkept := h.fremove_other (show (2 : ℤ) ≠ 1 by decide)
  revert hkept
  decide +kernel

end Neos.Scheduler
