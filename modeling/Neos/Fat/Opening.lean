import Neos.Fat.Creation
import Neos.Fat.Driver

/-!
# Opening through the driver

`fatfs_open` turns the flags into one of three modes of `fat_fopen`, or calls
`fat_opendir`, and writes what these find over the directory it opens from.
-/

namespace Neos.Fat

open ByteRange Vfs

/-- `LINUX_EEXIST`. -/
def linuxEexist : ℤ := 17

/-- `LINUX_ENOTDIR`. -/
def linuxEnotdir : ℤ := 20

/-- `OPEN_WRONLY`. -/
def openWronly : ℕ := 0x00001

/-- `OPEN_RDWR`. -/
def openRdwr : ℕ := 0x00002

/-- `OPEN_APPEND`. -/
def openAppend : ℕ := 0x00400

/-- `OPEN_CREAT`. -/
def openCreat : ℕ := 0x00040

/-- `OPEN_EXCL`. -/
def openExcl : ℕ := 0x00080

/-- `OPEN_TRUNC`. -/
def openTrunc : ℕ := 0x00200

/-- A flag is set. -/
def hasFlag (flags flag : ℕ) : Bool := flags &&& flag ≠ 0

/-- `vfs_iswriteable`. -/
def vfsIswriteable (openFlags : ℕ) : Bool := hasFlag openFlags openRdwr || hasFlag openFlags openWronly

/-- The mode in which `fatfs_open` calls `fat_fopen`. -/
def fopenMode (flags : ℕ) : OpenMode :=
  if hasFlag flags openAppend then .append
  else if hasFlag flags openCreat then .write
  else .read

/-- `fatfs_open`; a vref without a state is `none`. -/
def fatfsOpen (g : Bpb) (uninitialized : DirEntry) (vref : Option StateData)
    (basename : List UInt8) (flags : ℕ) (s : State) : Option (ℤ × Option StateData × State) :=
  match vref with
  | none => some (-linuxEio, none, s)
  | some state =>
      if state.isDir = false then some (-linuxEnotdir, some state, s)
      else
        let parentDir := state.file
        if hasFlag flags openDirectory then do
          let (opened, dir, s) ← fatOpendir g parentDir basename s
          return (if opened then 0 else -linuxEio, some ⟨true, dir⟩, s)
        else do
          let (opened, file, s) ← fatFopen g uninitialized parentDir basename (fopenMode flags) s
          if opened then return (0, some ⟨false, file⟩, s)
          else return (-linuxEio, some ⟨true, file⟩, s)

/-! ## The contract of `driver_open` -/

/-- The cluster at which a handle on a directory begins. -/
def dirCluster (dir : FatFile) : ℕ := (startDir dir).fatDir.dirFstClusLO

/-- A file has the size and the bytes it had. -/
structure Kept (g : Bpb) (file : FatFile) (s : State) (opened : StateData) (s' : State) : Prop where
  size : opened.isDir = false → opened.file.fatDir.dirFileSize = file.fatDir.dirFileSize
  bytes : ∀ l, FileChain g s.disk file.fatDir.dirFstClusLO l →
    ∀ j < file.fatDir.dirFileSize, chainByte g s'.disk l j = chainByte g s.disk l j

/-- A call on the directory `dir` does what the flags say, when a lookup of the name
gives `file` among the files and `sub` among the directories. -/
structure Honours (g : Bpb) (dir : FatFile) (name : List UInt8) (flags : ℕ) (file sub : FindResult)
    (s : State) (code : ℤ) (opened : StateData) (s' : State) : Prop where
  keeps : file.found = .foundFile → ¬ (hasFlag flags openTrunc ∧ vfsIswriteable flags) →
    Kept g file.fileOut s opened s'
  creates : file.found = .notFound → sub.found = .notFound →
    (code = 0 ∧ opened.isDir = false ↔ hasFlag flags openCreat)
  exclusive : file.found = .foundFile → hasFlag flags openCreat → hasFlag flags openExcl →
    code = -linuxEexist ∧ opened = ⟨true, dir⟩ ∧ s'.disk = s.disk
  appends : hasFlag flags openAppend → code = 0 → opened.isDir = false →
    (file.found = .foundFile → opened.file.cursor = file.fileOut.fatDir.dirFileSize) ∧
      (file.found = .notFound → hasFlag flags openCreat)
  directory : hasFlag flags openDirectory → ¬ hasFlag flags openCreat → code = 0 →
    opened.isDir = true ∧ (sub.found = .foundDir ∨ name = [])
  failure : code ≠ 0 → opened.isDir = true ∧ dirCluster opened.file = dirCluster dir

/-- The calls for which `fatfs_open` does what the flags say; `creatable` says that
`fat_create_file` can create the file. -/
structure Covered (dir : FatFile) (name : List UInt8) (flags : ℕ) (file sub : FindResult)
    (creatable : Prop) : Prop where
  exclusive : file.found = .foundFile → hasFlag flags openCreat → ¬ hasFlag flags openExcl
  noDirectory : hasFlag flags openDirectory → sub.found = .notFound → name ≠ [] →
    dirCluster sub.subdirOut = dirCluster dir
  directoryCreates : hasFlag flags openDirectory → file.found = .notFound → sub.found = .notFound →
    ¬ hasFlag flags openCreat
  truncates : ¬ hasFlag flags openDirectory → file.found = .foundFile → hasFlag flags openCreat →
    ¬ hasFlag flags openAppend →
      (hasFlag flags openTrunc ∧ vfsIswriteable flags) ∨ file.fileOut.fatDir.dirFileSize = 0
  appends : ¬ hasFlag flags openDirectory → file.found = .notFound → hasFlag flags openAppend →
    creatable → hasFlag flags openCreat
  full : ¬ hasFlag flags openDirectory → file.found = .notFound →
    hasFlag flags openAppend ∨ hasFlag flags openCreat → ¬ creatable →
      dirCluster dir = 2 ∧ (sub.found = .notFound → ¬ hasFlag flags openCreat)
  missing : ¬ hasFlag flags openDirectory → file.found = .notFound → ¬ hasFlag flags openAppend →
    ¬ hasFlag flags openCreat → dirCluster dir = 2

section

variable {g : Bpb} {uninitialized : DirEntry} {s s' s₁ s₂ : State} {dir : FatFile}
  {name : List UInt8} {flags : ℕ} {file sub : FindResult} {code : ℤ} {opened : StateData}

/-! ## What a call returns -/

/-- With `OPEN_DIRECTORY` a directory is looked up. -/
theorem fatfsOpen_directory (hsub : fatFind g dir name false false s = some (sub, s₂))
    (hflag : hasFlag flags openDirectory)
    (h : fatfsOpen g uninitialized (some ⟨true, dir⟩) name flags s = some (code, some opened, s')) :
    s'.disk = s.disk ∧ opened.isDir = true ∧
      ((name = [] ∨ sub.found = .foundDir) ∧ code = 0 ∨
        name ≠ [] ∧ sub.found = .notFound ∧ code = -linuxEio ∧
          dirCluster opened.file = dirCluster sub.subdirOut) := by
  have hlooked := fatFind_looks hsub
  unfold fatfsOpen at h
  dsimp only at h
  rw [if_neg Bool.noConfusion, if_pos hflag] at h
  obtain ⟨⟨done, found, s₃⟩, hcall, hrest⟩ := Option.bind_eq_some_iff.mp h
  unfold fatOpendir at hcall
  split at hcall
  · next hempty =>
      cases hcall
      cases hrest
      exact ⟨rfl, rfl, .inl ⟨.inl hempty, rfl⟩⟩
  · next hname =>
      rw [hsub, Option.bind_eq_bind, Option.bind_some] at hcall
      cases hcall
      cases hrest
      refine ⟨hlooked.disk, rfl, ?_⟩
      by_cases hfound : sub.found = .notFound
      · refine .inr ⟨hname, hfound, ?_, ?_⟩
        · rw [if_neg (by simpa using hfound)]
        · unfold dirCluster
          rw [startDir_startDir]
          unfold startDir
          dsimp only
          split <;> rfl
      · exact .inl ⟨.inr (hlooked.kind hfound), if_pos (by simpa using hfound)⟩

/-- Without it `fat_fopen` is called. -/
theorem fatfsOpen_file (hflag : ¬ hasFlag flags openDirectory)
    (h : fatfsOpen g uninitialized (some ⟨true, dir⟩) name flags s = some (code, some opened, s')) :
    ∃ done, fatFopen g uninitialized dir name (fopenMode flags) s =
        some (done, opened.file, s') ∧
      opened.isDir = !done ∧ code = if done then 0 else -linuxEio := by
  unfold fatfsOpen at h
  dsimp only at h
  rw [if_neg Bool.noConfusion, if_neg hflag] at h
  obtain ⟨⟨done, found, s₃⟩, hcall, hrest⟩ := Option.bind_eq_some_iff.mp h
  cases done
  all_goals
    cases hrest
    exact ⟨_, hcall, rfl, rfl⟩

/-- An existing file is truncated in the mode `"w"` and left alone in the others. -/
theorem fatFopen_existing {mode : OpenMode} {done : Bool} {handle : FatFile}
    (hfile : fatFind g dir name true false s = some (file, s₁)) (hfound : file.found = .foundFile)
    (h : fatFopen g uninitialized dir name mode s = some (done, handle, s')) :
    done = true ∧
      (mode = .write → handle.fatDir.dirFileSize = 0) ∧
      (mode ≠ .write → s'.disk = s.disk ∧ handle.fatDir = file.fileOut.fatDir) ∧
      (mode = .append → handle.cursor = file.fileOut.fatDir.dirFileSize) := by
  have hdisk := (fatFind_looks hfile).disk
  unfold fatFopen at h
  rw [hfile, Option.bind_eq_bind, Option.bind_some] at h
  dsimp only at h
  cases mode with
  | read =>
      cases h
      rw [hfound]
      exact ⟨rfl, (nomatch ·), fun _ => ⟨hdisk, rfl⟩, (nomatch ·)⟩
  | write =>
      rw [hfound] at h
      obtain ⟨⟨truncated, s₃⟩, htruncate, hrest⟩ := Option.bind_eq_some_iff.mp h
      cases hrest
      obtain ⟨s₄, -, htruncate⟩ := Option.bind_eq_some_iff.mp htruncate
      obtain ⟨s₅, -, htruncate⟩ := Option.bind_eq_some_iff.mp htruncate
      cases htruncate
      refine ⟨rfl, fun _ => ?_, fun hne => absurd rfl hne, (nomatch ·)⟩
      exact (DirEntry.dirFileSize_setFileSize _ _).trans (Nat.zero_mod _)
  | append =>
      rw [hfound] at h
      cases h
      refine ⟨rfl, (nomatch ·), fun _ => ⟨hdisk, rfl⟩, fun _ => ?_⟩
      exact u32_of_lt (DirEntry.dirFileSize_lt _)

/-- A missing file is created in the modes `"w"` and `"a"`; a handle on a file that
could not be created or found begins at cluster 0. -/
theorem fatFopen_missing (hg : Geometry g) {mode : OpenMode} {done : Bool} {handle : FatFile}
    (hfile : fatFind g dir name true false s = some (file, s₁)) (hmissing : file.found = .notFound)
    (h : fatFopen g uninitialized dir name mode s = some (done, handle, s')) :
    (mode = .read → done = false) ∧
      (mode ≠ .read →
        fatCreateFile g uninitialized file.rootDir name 0 s₁ = some (done, handle, s')) ∧
      (done = false → dirCluster handle = 2) := by
  have hnone := (fatFind_looks hfile).missing hmissing
  have hzero : ∀ handle : FatFile, handle.fatDir.dirFstClusLO = 0 → dirCluster handle = 2 := by
    intro handle hcluster
    unfold dirCluster startDir
    rw [if_pos (by omega)]
    exact (DirEntry.dirFstClusLO_setFstClusLO _ _).trans (by decide)
  have hdefault : fatFileDefault.fatDir.dirFstClusLO = 0 := by decide
  unfold fatFopen at h
  rw [hfile, Option.bind_eq_bind, Option.bind_some] at h
  dsimp only at h
  by_cases hread : mode = .read
  · subst hread
    cases h
    rw [hmissing, hnone]
    exact ⟨fun _ => rfl, fun hne => absurd rfl hne, fun _ => hzero _ hdefault⟩
  · have hcreate : fatCreateFile g uninitialized file.rootDir name 0 s₁ =
        some (done, handle, s') := by
      cases mode with
      | read => exact absurd rfl hread
      | write =>
          rw [hmissing] at h
          exact h
      | append =>
          rw [hmissing] at h
          exact h
    refine ⟨fun heq => absurd heq hread, fun _ => hcreate, ?_⟩
    rintro rfl
    obtain ⟨s₃, hagain, -⟩ := fatFind_again hg hfile
    unfold fatCreateFile at hcreate
    rw [hagain, Option.bind_eq_bind, Option.bind_some] at hcreate
    dsimp only at hcreate
    rw [if_neg (not_not.mpr hmissing), hnone] at hcreate
    exact hzero _ (fatCreate_failed hdefault hcreate)

/-! ## When the contract is kept -/

theorem Kept.of_disk {handle : FatFile} (hdisk : s'.disk = s.disk)
    (hsize : opened.isDir = false →
      opened.file.fatDir.dirFileSize = handle.fatDir.dirFileSize) : Kept g handle s opened s' :=
  ⟨hsize, fun l _ j _ => by rw [hdisk]⟩

theorem fopenMode_append (h : hasFlag flags openAppend) : fopenMode flags = .append := if_pos h

theorem fopenMode_write (h : ¬ hasFlag flags openAppend) (h' : hasFlag flags openCreat) :
    fopenMode flags = .write := by
  rw [fopenMode, if_neg h, if_pos h']

theorem fopenMode_read (h : ¬ hasFlag flags openAppend) (h' : ¬ hasFlag flags openCreat) :
    fopenMode flags = .read := by
  rw [fopenMode, if_neg h, if_neg h']

/-- The calls with `OPEN_DIRECTORY`. -/
theorem honours_iff_directory {creatable : Prop}
    (hsub : fatFind g dir name false false s = some (sub, s₂))
    (hflag : hasFlag flags openDirectory)
    (h : fatfsOpen g uninitialized (some ⟨true, dir⟩) name flags s = some (code, some opened, s')) :
    Honours g dir name flags file sub s code opened s' ↔
      Covered dir name flags file sub creatable := by
  obtain ⟨hdisk, hisdir, hcases⟩ := fatfsOpen_directory hsub hflag h
  have hnot : ¬ opened.isDir = false := by
    rw [hisdir]
    decide
  have hcode : code ≠ -linuxEexist := by
    rcases hcases with ⟨-, rfl⟩ | ⟨-, -, rfl, -⟩ <;> decide
  constructor
  · intro hok
    refine ⟨fun hfound hcreat hexcl => hcode (hok.exclusive hfound hcreat hexcl).1, ?_, ?_,
      fun hno => absurd hflag hno, fun hno => absurd hflag hno, fun hno => absurd hflag hno,
      fun hno => absurd hflag hno⟩
    · intro _ hmissing hname
      rcases hcases with ⟨hempty | hfound, -⟩ | ⟨-, -, rfl, hcluster⟩
      · exact absurd hempty hname
      · rw [hmissing] at hfound
        cases hfound
      · rw [← hcluster]
        exact (hok.failure (by decide)).2
    · intro _ hfile hmissing hcreat
      exact hnot ((hok.creates hfile hmissing).mpr hcreat).2
  · intro hcovered
    refine ⟨fun _ _ => .of_disk hdisk fun hfile => absurd hfile hnot, ?_,
      fun hfound hcreat hexcl => absurd hexcl (hcovered.exclusive hfound hcreat),
      fun _ _ hfile => absurd hfile hnot, ?_, ?_⟩
    · intro hfile hmissing
      exact iff_of_false (fun hdone => hnot hdone.2)
        (hcovered.directoryCreates hflag hfile hmissing)
    · intro _ _ hzero
      rcases hcases with ⟨hfound, -⟩ | ⟨-, -, rfl, -⟩
      · exact ⟨hisdir, hfound.symm⟩
      · exact absurd hzero (by decide)
    · intro hfailed
      rcases hcases with ⟨-, hzero⟩ | ⟨hname, hmissing, -, hcluster⟩
      · exact absurd hzero hfailed
      · exact ⟨hisdir, hcluster.trans (hcovered.noDirectory hflag hmissing hname)⟩

/-- The calls that open an existing file. -/
theorem honours_iff_existing {creatable : Prop}
    (hfile : fatFind g dir name true false s = some (file, s₁)) (hfound : file.found = .foundFile)
    (hflag : ¬ hasFlag flags openDirectory)
    (h : fatfsOpen g uninitialized (some ⟨true, dir⟩) name flags s = some (code, some opened, s')) :
    Honours g dir name flags file sub s code opened s' ↔
      Covered dir name flags file sub creatable := by
  obtain ⟨done, hcall, hisdir, hcode⟩ := fatfsOpen_file hflag h
  obtain ⟨rfl, hwrite, hother, happend⟩ := fatFopen_existing hfile hfound hcall
  have hthere : file.found ≠ .notFound := by
    rw [hfound]
    decide
  change code = 0 at hcode
  constructor
  · intro hok
    refine ⟨?_, fun hyes => absurd hyes hflag, fun hyes => absurd hyes hflag, ?_,
      fun _ hmissing => absurd hmissing hthere, fun _ hmissing => absurd hmissing hthere,
      fun _ hmissing => absurd hmissing hthere⟩
    · intro _ hcreat hexcl
      have hexists := (hok.exclusive hfound hcreat hexcl).1
      rw [hcode] at hexists
      exact absurd hexists (by decide)
    · intro _ _ hcreat happend'
      by_cases htrunc : hasFlag flags openTrunc ∧ vfsIswriteable flags
      · exact .inl htrunc
      · have hsize := (hok.keeps hfound (by exact htrunc)).size hisdir
        rw [hwrite (fopenMode_write happend' hcreat)] at hsize
        exact .inr hsize.symm
  · intro hcovered
    refine ⟨?_, fun hmissing => absurd hmissing hthere,
      fun _ hcreat hexcl => absurd hexcl (hcovered.exclusive hfound hcreat), ?_,
      fun hyes => absurd hyes hflag, fun hfailed => absurd hcode hfailed⟩
    · intro _ htrunc
      by_cases hmode : fopenMode flags = .write
      · have hzero : file.fileOut.fatDir.dirFileSize = 0 := by
          by_cases happend' : hasFlag flags openAppend
          · rw [fopenMode_append happend'] at hmode
            cases hmode
          · by_cases hcreat : hasFlag flags openCreat
            · exact (hcovered.truncates hflag hfound hcreat happend').resolve_left htrunc
            · rw [fopenMode_read happend' hcreat] at hmode
              cases hmode
        refine ⟨fun _ => (hwrite hmode).trans hzero.symm, ?_⟩
        intro l _ j hj
        rw [hzero] at hj
        exact absurd hj (Nat.not_lt_zero j)
      · obtain ⟨hdisk, hsame⟩ := hother hmode
        exact .of_disk hdisk fun _ => by rw [hsame]
    · intro happend' _ _
      exact ⟨fun _ => happend (fopenMode_append happend'), fun hmissing => absurd hmissing hthere⟩

/-- The calls that find no file. -/
theorem honours_iff_missing (hg : Geometry g)
    (hfile : fatFind g dir name true false s = some (file, s₁)) (hmissing : file.found = .notFound)
    (hflag : ¬ hasFlag flags openDirectory)
    (h : fatfsOpen g uninitialized (some ⟨true, dir⟩) name flags s = some (code, some opened, s')) :
    Honours g dir name flags file sub s code opened s' ↔
      Covered dir name flags file sub
        (∃ handle s₃, fatCreateFile g uninitialized file.rootDir name 0 s₁ =
          some (true, handle, s₃)) := by
  obtain ⟨done, hcall, hisdir, hcode⟩ := fatfsOpen_file hflag h
  obtain ⟨hread, hcreate, hroot⟩ := fatFopen_missing hg hfile hmissing hcall
  have hnone : ¬ file.found = .foundFile := by
    rw [hmissing]
    decide
  have hmode : fopenMode flags ≠ .read ↔ hasFlag flags openAppend ∨ hasFlag flags openCreat := by
    unfold fopenMode
    split
    · next happend => exact iff_of_true (by decide) (.inl happend)
    next happend =>
    split
    · next hcreat' => exact iff_of_true (by decide) (.inr hcreat')
    next hcreat' => exact iff_of_false (fun hne => hne rfl) (not_or.mpr ⟨happend, hcreat'⟩)
  have hdone : done = true → ∃ handle s₃,
      fatCreateFile g uninitialized file.rootDir name 0 s₁ = some (true, handle, s₃) := by
    rintro rfl
    by_cases hread' : fopenMode flags = .read
    · exact absurd (hread hread') (by decide)
    · exact ⟨_, _, hcreate hread'⟩
  have hfailed : done = false → hasFlag flags openAppend ∨ hasFlag flags openCreat →
      ¬ ∃ handle s₃,
        fatCreateFile g uninitialized file.rootDir name 0 s₁ = some (true, handle, s₃) := by
    rintro rfl hflags ⟨handle, s₃, hcreated⟩
    rw [hcreate (hmode.mpr hflags)] at hcreated
    cases hcreated
  cases done with
  | true =>
      change code = 0 at hcode
      have hflags : hasFlag flags openAppend ∨ hasFlag flags openCreat :=
        hmode.mp fun hread' => absurd (hread hread') (by decide)
      constructor
      · intro hok
        refine ⟨fun hfound => absurd hfound hnone, fun hyes => absurd hyes hflag,
          fun hyes => absurd hyes hflag, fun _ hfound => absurd hfound hnone, ?_, ?_, ?_⟩
        · intro _ _ happend _
          exact (hok.appends happend hcode hisdir).2 hmissing
        · exact fun _ _ _ hcreatable => absurd (hdone rfl) hcreatable
        · intro _ _ happend hcreat
          exact absurd hflags (not_or.mpr ⟨happend, hcreat⟩)
      · intro hcovered
        have hcreat : hasFlag flags openCreat := by
          rcases hflags with happend | hcreat
          · exact hcovered.appends hflag hmissing happend (hdone rfl)
          · exact hcreat
        exact ⟨fun hfound => absurd hfound hnone, fun _ _ => iff_of_true ⟨hcode, hisdir⟩ hcreat,
          fun hfound => absurd hfound hnone,
          fun _ _ _ => ⟨fun hfound => absurd hfound hnone, fun _ => hcreat⟩,
          fun hyes => absurd hyes hflag, fun hne => absurd hcode hne⟩
  | false =>
      change code = -linuxEio at hcode
      have hne : code ≠ 0 := by
        rw [hcode]
        decide
      have hnotfile : ¬ opened.isDir = false := by
        rw [hisdir]
        decide
      constructor
      · intro hok
        have hsame : dirCluster dir = 2 := (hok.failure hne).2.symm.trans (hroot rfl)
        refine ⟨fun hfound => absurd hfound hnone, fun hyes => absurd hyes hflag,
          fun hyes => absurd hyes hflag, fun _ hfound => absurd hfound hnone, ?_, ?_,
          fun _ _ _ _ => hsame⟩
        · intro _ _ happend hcreatable
          exact absurd hcreatable (hfailed rfl (.inl happend))
        · intro _ _ _ _
          exact ⟨hsame, fun hsub hcreat => hnotfile ((hok.creates hmissing hsub).mpr hcreat).2⟩
      · intro hcovered
        refine ⟨fun hfound => absurd hfound hnone, ?_, fun hfound => absurd hfound hnone,
          fun _ _ hfile => absurd hfile hnotfile, fun hyes => absurd hyes hflag, ?_⟩
        · intro _ hsub
          refine iff_of_false (fun hopen => hnotfile hopen.2) fun hcreat => ?_
          exact (hcovered.full hflag hmissing (.inr hcreat) (hfailed rfl (.inr hcreat))).2 hsub
            hcreat
        · intro _
          refine ⟨hisdir, (hroot rfl).trans ?_⟩
          by_cases hflags : hasFlag flags openAppend ∨ hasFlag flags openCreat
          · exact (hcovered.full hflag hmissing hflags (hfailed rfl hflags)).1.symm
          · obtain ⟨happend, hcreat⟩ := not_or.mp hflags
            exact (hcovered.missing hflag hmissing happend hcreat).symm

/-- A call does what the flags say exactly when no existing file is to be created
exclusively or is truncated by `OPEN_CREAT` alone, no missing file is created by
`OPEN_APPEND` alone or left out for `OPEN_DIRECTORY`, and a call that fails is made on
the directory that the overwritten handle happens to lead to. -/
theorem fatfsOpen_honours_iff (hg : Geometry g)
    (hfile : fatFind g dir name true false s = some (file, s₁))
    (hsub : fatFind g dir name false false s = some (sub, s₂))
    (h : fatfsOpen g uninitialized (some ⟨true, dir⟩) name flags s = some (code, some opened, s')) :
    Honours g dir name flags file sub s code opened s' ↔
      Covered dir name flags file sub
        (∃ handle s₃, fatCreateFile g uninitialized file.rootDir name 0 s₁ =
          some (true, handle, s₃)) := by
  by_cases hflag : hasFlag flags openDirectory
  · exact honours_iff_directory hsub hflag h
  by_cases hmissing : file.found = .notFound
  · exact honours_iff_missing hg hfile hmissing hflag h
  · exact honours_iff_existing hfile ((fatFind_looks hfile).kind hmissing) hflag h

end

/-! ## Opening the file `A` -/

/-- What the lookups of `A` find in the root directory. -/
theorem lookups_listed : ∃ file sub s₁ s₂,
    fatFind smallVolume rootData.file [0x41] true false listedState = some (file, s₁) ∧
      fatFind smallVolume rootData.file [0x41] false false listedState = some (sub, s₂) ∧
      file.found = .foundFile ∧ file.fileOut.fatDir.dirFileSize = 100 := by
  have hfile : (fatFind smallVolume rootData.file [0x41] true false listedState).map
      (fun r => (r.1.found, r.1.fileOut.fatDir.dirFileSize)) = some (.foundFile, 100) := by
    decide +kernel
  have hsub : (fatFind smallVolume rootData.file [0x41] false false listedState).isSome := by
    decide +kernel
  obtain ⟨⟨file, s₁⟩, hfind, hfound⟩ := Option.map_eq_some_iff.mp hfile
  obtain ⟨⟨sub, s₂⟩, hfind'⟩ := Option.isSome_iff_exists.mp hsub
  obtain ⟨hkind, hsize⟩ := Prod.mk.inj hfound
  exact ⟨file, sub, s₁, s₂, hfind, hfind', hkind, hsize⟩

/-- Opening `A` for reading does what the flags say. -/
theorem fatfsOpen_honours_iff_read : ∃ file sub code opened s',
    fatfsOpen smallVolume .zero (some rootData) [0x41] 0 listedState =
        some (code, some opened, s') ∧
      Honours smallVolume rootData.file [0x41] 0 file sub listedState code opened s' := by
  have hopen : (fatfsOpen smallVolume .zero (some rootData) [0x41] 0 listedState).map
      (fun r => r.2.1.isSome) = some true := by decide +kernel
  obtain ⟨⟨code, opened, s'⟩, hcall, hsome⟩ := Option.map_eq_some_iff.mp hopen
  obtain ⟨opened, rfl⟩ := Option.isSome_iff_exists.mp hsome
  obtain ⟨file, sub, s₁, s₂, hfile, hsub, hfound, -⟩ := lookups_listed
  refine ⟨file, sub, code, opened, s', hcall,
    (fatfsOpen_honours_iff smallVolume_geometry hfile hsub hcall).mpr ?_⟩
  have hflag : ∀ flag, ¬ hasFlag 0 flag = true := by
    intro flag
    rw [hasFlag, Nat.zero_and]
    decide
  have hne : file.found ≠ .notFound := by
    rw [hfound]
    decide
  exact ⟨fun _ hyes => absurd hyes (hflag _), fun hyes => absurd hyes (hflag _),
    fun hyes => absurd hyes (hflag _), fun _ _ hyes => absurd hyes (hflag _),
    fun _ hmissing => absurd hmissing hne, fun _ hmissing => absurd hmissing hne,
    fun _ hmissing => absurd hmissing hne⟩

/-- Opening `A` for writing with `OPEN_CREAT` truncates its 100 bytes, although
`OPEN_TRUNC` is not given. -/
theorem fatfsOpen_truncates : ∃ file sub s₁ s₂ code opened s',
    fatFind smallVolume rootData.file [0x41] true false listedState = some (file, s₁) ∧
      fatFind smallVolume rootData.file [0x41] false false listedState = some (sub, s₂) ∧
      fatfsOpen smallVolume .zero (some rootData) [0x41] (openCreat ||| openWronly) listedState =
        some (code, some opened, s') ∧
      file.fileOut.fatDir.dirFileSize = 100 ∧ opened.file.fatDir.dirFileSize = 0 ∧
      ¬ Honours smallVolume rootData.file [0x41] (openCreat ||| openWronly) file sub listedState
        code opened s' := by
  have hopen : (fatfsOpen smallVolume .zero (some rootData) [0x41] (openCreat ||| openWronly)
      listedState).map (fun r => r.2.1.map fun o => (o.isDir, o.file.fatDir.dirFileSize)) =
        some (some (false, 0)) := by
    decide +kernel
  obtain ⟨⟨code, opened, s'⟩, hcall, hsome⟩ := Option.map_eq_some_iff.mp hopen
  obtain ⟨opened, rfl, hopened⟩ := Option.map_eq_some_iff.mp hsome
  obtain ⟨hisdir, hzero⟩ := Prod.mk.inj hopened
  obtain ⟨file, sub, s₁, s₂, hfile, hsub, hfound, hsize⟩ := lookups_listed
  refine ⟨file, sub, s₁, s₂, code, opened, s', hfile, hsub, hcall, hsize, hzero, ?_⟩
  intro hok
  have hkept := (hok.keeps hfound (by decide)).size hisdir
  rw [hzero, hsize] at hkept
  cases hkept

end Neos.Fat
