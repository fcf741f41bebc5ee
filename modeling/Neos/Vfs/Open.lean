import Neos.Vfs.Paths

/-!
# Following a path

`vfs_open` as a sequence of steps.  The names of a path alone determine which of
them are entered, with which flags, and which code ends the walk when all steps
succeed.
-/

namespace Neos.Vfs

variable {W : Type}

/-! ## Sequences of steps -/

/-- A step of a walk: a name and the flags it is entered with. -/
abbrev PathStep := CString × ℕ

/-- Enter names one after the other until one fails. -/
def enterAll (m : Mounts W) : List PathStep → VRef → W → Option (Outcome W)
  | [], vref, w => some ⟨0, vref, w⟩
  | step :: steps, vref, w => do
      let entered ← vfsEnter m vref step.1 step.2 w
      if entered.res ≠ 0 then some entered
      else enterAll m steps entered.vref entered.world

/-- The steps for a name kept back, if there is one. -/
def backSteps (back : Option CString) (flags : ℕ) : List PathStep :=
  back.toList.map fun name => (name, flags)

/-- The steps `vfs_open` makes for the names of a path and the code it returns
after them, when `count` names were resolved before and the last of them is
kept back. -/
def schedule (flags : ℕ) : ℕ → Option CString → List CString → List PathStep × ℤ
  | _, back, [] => (backSteps back flags, 0)
  | count, back, name :: names =>
      if fileMaxName - 1 ≤ name.length then ([], linuxEnametoolong)
      else if pathMaxResolves ≤ count then
        (backSteps back (directoryFlags flags), linuxEloop)
      else
        let later := schedule flags (count + 1) (some name) names
        (backSteps back (directoryFlags flags) ++ later.1, later.2)

/-- The end of a walk: the code is returned when no step failed. -/
def Outcome.finish (code : ℤ) (o : Outcome W) : Outcome W :=
  if o.res ≠ 0 then o else { o with res := code }

@[simp] theorem Outcome.finish_of_ne {code : ℤ} {o : Outcome W} (h : o.res ≠ 0) :
    o.finish code = o := if_pos h

@[simp] theorem Outcome.finish_of_eq {code : ℤ} {o : Outcome W} (h : o.res = 0) :
    o.finish code = { o with res := code } := if_neg (not_not.mpr h)

theorem enterAll_back (m : Mounts W) (back : Option CString) (flags : ℕ)
    (steps : List PathStep) (vref : VRef) (w : W) :
    enterAll m (backSteps back flags ++ steps) vref w =
      (enterBack m back flags vref w).bind fun o =>
        if o.res ≠ 0 then some o else enterAll m steps o.vref o.world := by
  cases back with
  | none => simp [backSteps, enterBack]
  | some name => rfl

/-- Entering the name kept back and returning a code. -/
theorem enterAll_back_finish (m : Mounts W) (back : Option CString) (flags : ℕ) (code : ℤ)
    (vref : VRef) (w : W) :
    (enterAll m (backSteps back flags) vref w).map (Outcome.finish code) =
      (enterBack m back flags vref w).bind fun o =>
        if o.res ≠ 0 then some o else some { o with res := code } := by
  have h := enterAll_back m back flags [] vref w
  rw [List.append_nil] at h
  rw [h]
  cases enterBack m back flags vref w with
  | none => rfl
  | some o =>
      by_cases hres : o.res = 0
      · simp [enterAll, hres]
      · simp [hres]

/-! ## `vfs_open` as a walk -/

/-- The loop of `vfs_open` makes the scheduled steps. -/
theorem openLoop_eq (m : Mounts W) (flags : ℕ) :
    ∀ (fuel : ℕ) (path : VPath) (back : Option CString) (vref : VRef) (w : W),
      path.errno = 0 → path.resolves ≤ pathMaxResolves →
      fuel + path.resolves = pathMaxResolves + 1 →
      openLoop m flags fuel path back vref w =
        (enterAll m (schedule flags path.resolves back (sections path.rest)).1 vref w).map
          (Outcome.finish (schedule flags path.resolves back (sections path.rest)).2)
  | 0, path, back, vref, w, herrno, hle, hfuel => by omega
  | fuel + 1, path, back, vref, w, herrno, hle, hfuel => by
      rw [openLoop]
      by_cases hdone : stripSlash path.rest = []
      · -- no name is left
        rw [sections_nil hdone, schedule, enterAll_back_finish]
        dsimp only
        rw [if_pos (vfsResolve_done hdone)]
        cases enterBack m back flags vref w with
        | none => rfl
        | some o =>
            by_cases hres : o.res = 0
            · rw [Option.bind_some, if_neg (not_not.mpr hres), ← hres]
            · rw [Option.bind_some, if_pos hres]
      obtain ⟨hmore, hresolves⟩ := vfsResolve_more hdone
      rw [sections_cons hdone, schedule]
      dsimp only
      rw [if_neg (by rw [hmore]; decide)]
      by_cases hlong : fileMaxName - 1 ≤ (nextName (stripSlash path.rest)).length
      · -- the next name is too long
        have herr := vfsResolve_long hdone hlong
        rw [if_pos hlong, herr, if_pos (by decide)]
        rfl
      obtain ⟨hname, herr, hrest⟩ := vfsResolve_fits hdone (Nat.lt_of_not_le hlong)
      rw [if_neg hlong, herr, herrno, if_neg (not_not.mpr rfl), hresolves]
      by_cases hmany : pathMaxResolves ≤ path.resolves
      · -- this was the last name that may be resolved
        rw [if_pos hmany, enterAll_back_finish]
        simp only [Nat.lt_succ_of_le hmany, if_true]
        rfl
      · rw [if_neg hmany, hname]
        have hrec := fun vref w => openLoop_eq m flags fuel (vfsResolve path).path
          (some (nextName (stripSlash path.rest))) vref w (by rw [herr, herrno]) (by omega)
          (by omega)
        simp only [hresolves, hrest] at hrec
        rw [enterAll_back]
        have hlt : ¬ path.resolves + 1 > pathMaxResolves := by omega
        simp only [hlt, if_false, hrec]
        cases enterBack m back (directoryFlags flags) vref w with
        | none => rfl
        | some o =>
            by_cases hres : o.res = 0
            · simp [hres]
            · simp [hres]

/-- The names of a path. -/
def names (path : CString) : List CString := sections (tail path 0)

/-- The start of a walk: a copy of the root or of the relation, after the first
`vfs_update`. -/
def start (m : Mounts W) (relation : VRef) (path : CString) (w : W) : Option (Outcome W) :=
  let source := if charAt path 0 = slash then vfsRoot else relation
  let copied := vfsRefcpy m source w
  vfsUpdate m copied.1 copied.2

/-- `vfs_open` makes the scheduled steps from the start, whatever the result of
the first `vfs_update` was. -/
theorem vfsOpen_eq (m : Mounts W) (relation : VRef) (path : CString) (flags : ℕ) (w : W) :
    vfsOpen m relation path flags w =
      (start m relation path w).bind fun updated =>
        (enterAll m (schedule flags 0 none (names path)).1 updated.vref updated.world).map
          (Outcome.finish (schedule flags 0 none (names path)).2) := by
  have hloop := fun vref w => openLoop_eq m flags (pathMaxResolves + 1) ⟨path, 0, 0, 0⟩ none
    vref w rfl (Nat.zero_le _) rfl
  unfold vfsOpen start
  dsimp only
  simp only [hloop]
  rfl

/-! ## Acceptable paths -/

/-- The names are short enough and not too many. -/
def Acceptable (names : List CString) : Prop :=
  names.length ≤ pathMaxResolves ∧ ∀ name ∈ names, name.length < fileMaxName - 1

/-- All names of a path with the flags they are entered with. -/
def plan (flags : ℕ) : List CString → List PathStep
  | [] => []
  | [name] => [(name, flags)]
  | name :: next :: rest => (name, directoryFlags flags) :: plan flags (next :: rest)

/-- Names that are acceptable are all entered, and the walk ends without a
code. -/
theorem schedule_of_acceptable (flags : ℕ) :
    ∀ (names : List CString) (count : ℕ) (back : Option CString),
      count + names.length ≤ pathMaxResolves →
      (∀ name ∈ names, name.length < fileMaxName - 1) →
      schedule flags count back names = (plan flags (back.toList ++ names), 0)
  | [], count, back, _, _ => by
      cases back <;> rfl
  | name :: names, count, back, hcount, hlen => by
      have hname := hlen name List.mem_cons_self
      rw [List.length_cons] at hcount
      rw [schedule, if_neg (Nat.not_le_of_lt hname), if_neg (by omega),
        schedule_of_acceptable flags names (count + 1) (some name) (by omega)
          fun n hn => hlen n (List.mem_cons_of_mem _ hn)]
      cases back <;> rfl

/-- A walk over names that are not acceptable ends with a positive code. -/
theorem schedule_of_not_acceptable (flags : ℕ) :
    ∀ (names : List CString) (count : ℕ) (back : Option CString), count ≤ pathMaxResolves →
      ¬ (count + names.length ≤ pathMaxResolves ∧
        ∀ name ∈ names, name.length < fileMaxName - 1) →
      0 < (schedule flags count back names).2
  | [], count, back, hle, h => by
      refine absurd ⟨hle, ?_⟩ h
      intro name hname
      cases hname
  | name :: names, count, back, hle, h => by
      rw [schedule]
      split
      · show 0 < linuxEnametoolong
        decide
      · next hlen =>
          split
          · show 0 < linuxEloop
            decide
          · next hcount =>
              refine schedule_of_not_acceptable flags names (count + 1) _ (by omega) ?_
              rintro ⟨h₁, h₂⟩
              refine h ⟨by rw [List.length_cons]; omega, ?_⟩
              intro n hn
              rcases List.mem_cons.mp hn with rfl | hn
              · exact Nat.lt_of_not_le hlen
              · exact h₂ n hn

theorem Acceptable.schedule_eq {names : List CString} (h : Acceptable names) (flags : ℕ) :
    schedule flags 0 none names = (plan flags names, 0) :=
  schedule_of_acceptable flags names 0 none (by simpa using h.1) h.2

theorem schedule_code_pos {names : List CString} (h : ¬ Acceptable names) (flags : ℕ) :
    0 < (schedule flags 0 none names).2 :=
  schedule_of_not_acceptable flags names 0 none (Nat.zero_le _) (by rwa [Nat.zero_add])

theorem schedule_code_nonneg (names : List CString) (flags : ℕ) :
    0 ≤ (schedule flags 0 none names).2 := by
  by_cases h : Acceptable names
  · exact Int.le_of_eq (congrArg Prod.snd (h.schedule_eq flags)).symm
  · exact Int.le_of_lt (schedule_code_pos h flags)

end Neos.Vfs
