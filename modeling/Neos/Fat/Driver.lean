import Neos.Fat.Readdir
import Neos.Fat.Reading
import Neos.Vfs.Directory

/-!
# Listing through the driver

`fatfs_list` goes back to the start of the directory on every call and returns 0
whatever it wrote, through two pointers that are never set.  `fatfs_seek` sets the
cursor of the handle, which counts entries, to an offset that `fatfs_list` gives
in bytes.
-/

namespace Neos.Fat

open Vfs

variable {g : Bpb} {s s' : State} {l : List ℕ} {items : List Item}

/-! ## The functions of `fatfs.c` -/

/-- `LINUX_EIO`. -/
def linuxEio : ℤ := 5

/-- `state_data`.  The two members of the union have the same layout. -/
structure StateData where
  isDir : Bool
  file : FatFile
deriving DecidableEq

/-- `fat_longname_to_string` into the name of a `vEntry`; `none` stands for a name
without an end, or one that does not fit. -/
def fatLongnameToString (longFilename : List ℕ) : Option CString :=
  let chars := longFilename.takeWhile (· ≠ 0)
  if chars.length < longFilename.length ∧ chars.length < fileMaxName then
    some (chars.map charOfShort)
  else none

/-- The loop of `fatfs_list`: the entries it writes, and the handle. -/
def listLoop (g : Bpb) : ℕ → FatFile → State → Option (List VEntry × FatFile × State)
  | 0, dir, s => some ([], dir, s)
  | n + 1, dir, s => do
      let (r, s) ← fatReaddir g dir s
      if r.found = .notFound then return ([], r.rootDir, s)
      else
        let fileRepresentation := if r.found = .foundFile then r.fileOut else r.subdirOut
        let name ← fatLongnameToString fileRepresentation.longFilename
        let entry : VEntry :=
          { seekOffset := r.subdirOut.entryPosition
            nameLength := name.length
            name := name
            type := if r.found = .foundFile then .reg else .dir }
        let (entries, dir, s) ← listLoop g n r.rootDir s
        return (entry :: entries, dir, s)

/-- `fatfs_list`.  `harmless` says that the values `dir_entry` and `file_entry` happen
to have point to memory that can be written and that nothing else uses; otherwise
the call has no defined effect. -/
def fatfsList (g : Bpb) (harmless : Bool) (max : ℕ) (state : StateData) (s : State) :
    Option (ℤ × List VEntry × StateData × State) :=
  if state.isDir then do
    let dir := fatRewinddir state.file
    if max ≠ 0 ∧ harmless = false then none
    else
      let (entries, dir, s) ← listLoop g max dir s
      return (0, entries, { state with file := dir }, s)
  else some (-linuxEio, [], state, s)

/-- `fat_dirseek`. -/
def fatDirseek (dir : FatFile) (offset origin : ℤ) : Bool × FatFile :=
  if origin = 0 then (true, { dir with cursor := (offset % 2 ^ 32).toNat })
  else if origin = 1 then (true, { dir with cursor := ((dir.cursor + offset) % 2 ^ 32).toNat })
  else if origin = 2 then (false, dir)
  else (true, dir)

/-- An `unsigned int` as an `int`. -/
def intOfUnsigned (n : ℕ) : ℤ := if n < 2 ^ 31 then n else n - 2 ^ 32

/-- `fatfs_seek`. -/
def fatfsSeek (state : StateData) (offset whence : ℤ) : ℤ × StateData :=
  if state.isDir then
    let sought := fatDirseek state.file offset whence
    (if sought.1 then intOfUnsigned sought.2.cursor else -linuxEio, { state with file := sought.2 })
  else
    let file := fatFseek state.file offset whence
    (intOfUnsigned file.cursor, { state with file := file })

/-! ## Sequences of calls -/

/-- A call on a directory: `fatfs_list`, or `fatfs_seek` back to the `seek_offset` of
the `n`-th entry that was listed before. -/
inductive DirOp
  | list (max : ℕ) (harmless : Bool)
  | seek (n : ℕ)

/-- An entry of a listing describes an item. -/
structure Describes (i : Item) (entry : VEntry) : Prop where
  name : entry.name = i.characters.map charOfShort
  length : entry.nameLength = entry.name.length
  type : entry.type = if i.entry.isDirectory then .dir else .reg

/-- The calls do what a listing should do, when `pos` is the item to be listed next
and `seen` are the entries listed so far, each with its item's number: a call
returns the number of entries it wrote, they describe the next items, and it is 0
only behind the last item. -/
def Conforms (g : Bpb) (items : List Item) :
    List DirOp → ℕ → List (VEntry × ℕ) → StateData → State → Prop
  | [], _, _, _, _ => True
  | .list max harmless :: ops, pos, seen, state, s =>
      ∃ code entries state' s', fatfsList g harmless max state s = some (code, entries, state', s') ∧
        code = entries.length ∧ List.Forall₂ Describes ((items.drop pos).take max) entries ∧
        (code = 0 → items.length ≤ pos) ∧
        Conforms g items ops (pos + entries.length) (seen ++ entries.zipIdx pos) state' s'
  | .seek n :: ops, pos, seen, state, s =>
      match seen[n]? with
      | none => Conforms g items ops pos seen state s
      | some (entry, i) =>
          Conforms g items ops i seen (fatfsSeek state (intOfUnsigned entry.seekOffset) 0).2 s

/-! ## What one call does -/

theorem fatfsList_code {harmless : Bool} {max : ℕ} {state state' : StateData} {code : ℤ}
    {entries : List VEntry} (hdir : state.isDir = true)
    (h : fatfsList g harmless max state s = some (code, entries, state', s')) : code = 0 := by
  unfold fatfsList at h
  rw [if_pos hdir] at h
  dsimp only at h
  split at h
  · cases h
  · obtain ⟨⟨listed, dir, s₁⟩, -, hrest⟩ := Option.bind_eq_some_iff.mp h
    exact (Prod.mk.inj (Option.some_inj.mp hrest)).1.symm

theorem fatfsList_harmful {max : ℕ} (hmax : 1 ≤ max) {state : StateData} (hdir : state.isDir = true)
    (s : State) : fatfsList g false max state s = none := by
  unfold fatfsList
  rw [if_pos hdir]
  exact if_pos ⟨by omega, rfl⟩

/-- The first call on the rewound handle. -/
theorem fatReaddir_first (hg : Geometry g) {dir : FatFile}
    (h : ListedAt g s.disk (startDir dir).fatDir.dirFstClusLO l items) :
    ∃ r s', fatReaddir g (fatRewinddir dir) s = some (r, s') ∧ s'.disk = s.disk ∧
      (items ≠ [] → r.found ≠ .notFound) ∧
      (items = [] → r.found = .notFound ∧ r.rootDir = dirAt dir 0) := by
  have hfirst : fatReaddir g (fatRewinddir dir) s = fatReaddir g (dirAt dir 0) s := by
    rw [← startDir_rewinddir]
    exact (findWith_startDir (findNested g 0) ⟨[], false, true, false⟩ _ s).symm
  obtain ⟨r, s', hcall, hdisk, hr⟩ := fatReaddir_spec hg (show 0 < 2 ^ 31 by decide) h
  refine ⟨r, s', hfirst.trans hcall, hdisk, ?_, ?_⟩
  · intro hne hfound
    obtain ⟨i, rest, rfl⟩ := List.exists_cons_of_ne_nil hne
    rw [hr.1.found] at hfound
    split at hfound <;> cases hfound
  · rintro rfl
    exact hr

/-- In a directory without items nothing is written. -/
theorem fatfsList_empty (hg : Geometry g) {max : ℕ} (hmax : 1 ≤ max) {state : StateData}
    (hdir : state.isDir = true)
    (h : ListedAt g s.disk (startDir state.file).fatDir.dirFstClusLO l []) :
    ∃ s', fatfsList g true max state s = some (0, [], ⟨true, dirAt state.file 0⟩, s') ∧
      s'.disk = s.disk := by
  obtain ⟨n, rfl⟩ := Nat.exists_eq_add_of_le' hmax
  obtain ⟨r, s', hcall, hdisk, -, hempty⟩ := fatReaddir_first hg h
  obtain ⟨hfound, hroot⟩ := hempty rfl
  have hloop : listLoop g (n + 1) (fatRewinddir state.file) s =
      some ([], dirAt state.file 0, s') := by
    rw [listLoop, hcall, Option.bind_eq_bind, Option.bind_some]
    dsimp only
    rw [if_pos hfound, hroot]
    rfl
  refine ⟨s', ?_, hdisk⟩
  unfold fatfsList
  rw [if_pos hdir]
  dsimp only
  rw [if_neg (by simp), hloop, hdir]
  rfl

/-- In one with items something is written. -/
theorem fatfsList_writes (hg : Geometry g) {max : ℕ} (hmax : 1 ≤ max) {state state' : StateData}
    (hdir : state.isDir = true) (hne : items ≠ [])
    (h : ListedAt g s.disk (startDir state.file).fatDir.dirFstClusLO l items) {harmless : Bool}
    {code : ℤ} {entries : List VEntry}
    (hrun : fatfsList g harmless max state s = some (code, entries, state', s')) : entries ≠ [] := by
  obtain ⟨n, rfl⟩ := Nat.exists_eq_add_of_le' hmax
  obtain ⟨r, s₁, hcall, -, hfound, -⟩ := fatReaddir_first hg h
  unfold fatfsList at hrun
  rw [if_pos hdir] at hrun
  dsimp only at hrun
  split at hrun
  · cases hrun
  · obtain ⟨⟨listed, dir, s₂⟩, hloop, hrest⟩ := Option.bind_eq_some_iff.mp hrun
    obtain ⟨-, hrest⟩ := Prod.mk.inj (Option.some_inj.mp hrest)
    rw [listLoop, hcall, Option.bind_eq_bind, Option.bind_some] at hloop
    dsimp only at hloop
    rw [if_neg (hfound hne)] at hloop
    obtain ⟨name, -, hloop⟩ := Option.bind_eq_some_iff.mp hloop
    obtain ⟨⟨more, dir', s₃⟩, -, hloop⟩ := Option.bind_eq_some_iff.mp hloop
    rw [← (Prod.mk.inj hrest).1, ← (Prod.mk.inj (Option.some_inj.mp hloop)).1]
    exact List.cons_ne_nil _ _

/-- The calls do what a listing should do exactly when every call of `fatfs_list` in
the sequence finds a directory without entries, and pointers that do no harm. -/
theorem fatfsList_conforms_iff (hg : Geometry g) :
    ∀ {ops : List DirOp} {items : List Item} {state : StateData} {s : State},
      (∀ max harmless, .list max harmless ∈ ops → 1 ≤ max) → state.isDir = true →
        ListedAt g s.disk (startDir state.file).fatDir.dirFstClusLO l items →
          (Conforms g items ops 0 [] state s ↔
            ∀ max harmless, .list max harmless ∈ ops → items = [] ∧ harmless = true)
  | [], _, _, _, _, _, _ => by simp [Conforms]
  | .seek n :: ops, items, state, s, hmax, hdir, h => by
      have hrec := fatfsList_conforms_iff hg
        (fun max harmless hmem => hmax max harmless (List.mem_cons_of_mem _ hmem)) hdir h
      rw [Conforms, List.getElem?_nil]
      simp only [List.mem_cons, reduceCtorEq, false_or]
      exact hrec
  | .list max harmless :: ops, items, state, s, hmax, hdir, h => by
      have hone := hmax max harmless List.mem_cons_self
      have hmax' : ∀ max harmless, .list max harmless ∈ ops → 1 ≤ max :=
        fun max harmless hmem => hmax max harmless (List.mem_cons_of_mem _ hmem)
      by_cases hempty : items = [] ∧ harmless = true
      · -- the call leaves everything as it was
        obtain ⟨rfl, rfl⟩ := hempty
        obtain ⟨s', hrun, hdisk⟩ := fatfsList_empty hg hone hdir h
        have h' : ListedAt g s'.disk
            (startDir (StateData.mk true (dirAt state.file 0)).file).fatDir.dirFstClusLO l [] := by
          rw [hdisk, startDir_dirAt]
          exact h
        have hrec := fatfsList_conforms_iff hg (s := s') hmax' rfl h'
        have hstep : Conforms g [] (.list max true :: ops) 0 [] state s ↔
            Conforms g [] ops 0 [] ⟨true, dirAt state.file 0⟩ s' := by
          constructor
          · rintro ⟨code, entries, state', s₁, hrun', -, -, -, hrest⟩
            rw [hrun, Option.some_inj] at hrun'
            obtain ⟨rfl, rfl, rfl, rfl⟩ := hrun'
            exact hrest
          · intro hrest
            refine ⟨0, [], _, s', hrun, rfl, ?_, fun _ => le_rfl, hrest⟩
            rw [List.drop_nil, List.take_nil]
            exact .nil
        rw [hstep, hrec]
        constructor
        · intro hall max' harmless' hmem
          rcases List.mem_cons.mp hmem with heq | hmem
          · obtain ⟨-, rfl⟩ := DirOp.list.inj heq
            exact ⟨rfl, rfl⟩
          · exact hall max' harmless' hmem
        · exact fun hall max' harmless' hmem => hall max' harmless' (List.mem_cons_of_mem _ hmem)
      · refine iff_of_false ?_ fun hall => hempty (hall max harmless List.mem_cons_self)
        rintro ⟨code, entries, state', s', hrun, hcode, -, -, -⟩
        cases harmless with
        | false =>
            rw [fatfsList_harmful hone hdir] at hrun
            cases hrun
        | true =>
            -- the call returns 0 although it wrote an entry
            have hne : items ≠ [] := fun hnil => hempty ⟨hnil, rfl⟩
            have hwritten := fatfsList_writes hg hone hdir hne h hrun
            rw [fatfsList_code hdir hrun] at hcode
            have hlen := List.length_pos_iff.mpr hwritten
            omega

/-! ## Two directories -/

/-- The small volume with an empty root directory. -/
def emptyState : State :=
  { smallState with disk := storeFat (fun _ => 0) 2 0x0FFFFFFF }

/-- The handle on the root directory. -/
def rootData : StateData := ⟨true, fatFileDefault⟩

theorem fatfsList_conforms_iff_empty :
    Conforms smallVolume [] [.list 4 true, .seek 0, .list 1 true] 0 [] rootData emptyState := by
  have hstart : (startDir rootData.file).fatDir.dirFstClusLO = 2 := by decide +kernel
  have hlisted : ListedAt smallVolume emptyState.disk
      (startDir rootData.file).fatDir.dirFstClusLO [2] [] := by
    rw [hstart]
    refine ⟨⟨.last ?_, ?_⟩, ?_, fun i hi => nomatch hi⟩
    · have hmark : fatEntry smallVolume emptyState.disk 2 = 0x0FFFFFFF := by decide +kernel
      rw [hmark]
      exact ⟨by decide, by decide⟩
    · intro c hc
      rw [List.mem_singleton.mp hc]
      exact ⟨by decide, by decide⟩
    · have hcount : [2].length * smallVolume.clusterSize / 32 = 15 + 1 := by decide +kernel
      rw [slots, hcount, List.range_succ_eq_map, List.map_cons]
      apply Layout.stop
      decide +kernel
  refine (fatfsList_conforms_iff smallVolume_geometry ?_ rfl hlisted).mpr ?_
  · intro max harmless hmem
    simp only [List.mem_cons, DirOp.list.injEq, reduceCtorEq, List.not_mem_nil, or_false,
      false_or] at hmem
    omega
  · intro max harmless hmem
    simp only [List.mem_cons, DirOp.list.injEq, reduceCtorEq, List.not_mem_nil, or_false,
      false_or] at hmem
    exact ⟨rfl, by rcases hmem with h | h <;> exact h.2⟩

/-- A call on the root directory with the file `A` writes its entry and returns 0, and
so does the next one. -/
theorem fatfsList_repeats :
    ((fatfsList smallVolume true 4 rootData listedState).map fun r =>
        (r.1, r.2.1.map VEntry.name)) = some (0, [[0x41]]) ∧
      ((fatfsList smallVolume true 4 rootData listedState).bind fun r =>
        (fatfsList smallVolume true 4 r.2.2.1 r.2.2.2).map fun r =>
          (r.1, r.2.1.map VEntry.name)) = some (0, [[0x41]]) := by
  decide +kernel

end Neos.Fat
