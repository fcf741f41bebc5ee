import Neos.Library.PartialSteps
import Neos.Fat.Handles

/-!
# Gaps in a file

A write behind the end of a file leaves a gap between the old end and its data.
Clusters are cleared when they are taken, but a truncated file keeps its first
cluster as it is.  So a gap reads as zero exactly as far as the first cluster was
zero when the file was last emptied.
-/

namespace Neos.Fat

open ByteRange PartialSteps

variable {g : Bpb} {l dir : List ℕ}

/-! ## Calls on one file -/

/-- A call that a program makes on the file. -/
inductive Call
  | fopen (uninitialized : DirEntry) (rootDir : FatFile) (path : List UInt8) (mode : OpenMode)
  | fseek (offset origin : ℤ)
  | fwrite (dataIn : ℕ → UInt8) (dataSize : ℕ)

/-- The handle a program has on the file, the offsets written since the file was
created or last truncated, and what its first cluster held then. -/
structure Session where
  state : State
  file : FatFile
  written : Set ℕ
  left : ℕ → UInt8

namespace Session

variable {c c' : Session}

/-- The size of the file. -/
def size (c : Session) : ℕ := c.file.fatDir.dirFileSize

/-- A file that has just been created or truncated. -/
def emptied (g : Bpb) (file : FatFile) (s : State) : Session :=
  ⟨s, file, ∅, clusterByte g s.disk file.fatDir.dirFstClusLO⟩

/-- A successful call. -/
def call (g : Bpb) (c : Session) : Call → Option Session
  | .fopen uninitialized rootDir path mode => do
      let (opened, file, s) ← fatFopen g uninitialized rootDir path mode c.state
      if opened = false then none
      else if mode = .write then some (emptied g file s)
      else some { c with state := s, file := file }
  | .fseek offset origin => some { c with file := fatFseek c.file offset origin }
  | .fwrite dataIn dataSize => do
      let (done, file, s) ← fatFwrite g dataIn dataSize c.file c.state
      if done = false then none
      else some { c with
        state := s
        file := file
        written := c.written ∪ {j | c.file.cursor ≤ j ∧ j < c.file.cursor + dataSize} }

theorem call_fwrite {data : ℕ → UInt8} {n : ℕ} (h : c.call g (.fwrite data n) = some c') :
    ∃ file s, fatFwrite g data n c.file c.state = some (true, file, s) ∧
      c' = ⟨s, file, c.written ∪ {j | c.file.cursor ≤ j ∧ j < c.file.cursor + n}, c.left⟩ := by
  obtain ⟨⟨done, file, s⟩, hwrite, hrest⟩ := Option.bind_eq_some_iff.mp h
  cases done with
  | false => cases hrest
  | true =>
      cases hrest
      exact ⟨file, s, hwrite, rfl⟩

theorem call_fopen {uninitialized : DirEntry} {rootDir : FatFile} {path : List UInt8}
    {mode : OpenMode} (h : c.call g (.fopen uninitialized rootDir path mode) = some c') :
    ∃ file s, fatFopen g uninitialized rootDir path mode c.state = some (true, file, s) ∧
      c' = if mode = .write then emptied g file s else { c with state := s, file := file } := by
  obtain ⟨⟨opened, file, s⟩, hopen, hrest⟩ := Option.bind_eq_some_iff.mp h
  cases opened with
  | false => cases hrest
  | true =>
      refine ⟨file, s, hopen, ?_⟩
      cases mode <;>
        cases hrest <;>
        rfl

/-- The call is made on this file, and a write finds free data clusters for what it
adds. -/
def Served (g : Bpb) (dir : List ℕ) (c : Session) : Call → Prop
  | .fopen _ rootDir path _ =>
      FindsFile g c.state dir c.file.firstParentCluster c.file.entryPosition rootDir path
  | .fseek _ _ => True
  | .fwrite _ dataSize => Room g c.state.disk c.file dataSize

/-- The gap that a write leaves does not lie over bytes of the first cluster that
were there before. -/
def GapClear (g : Bpb) (c : Session) : Call → Prop
  | .fwrite _ _ => ∀ j, c.size ≤ j → j < c.file.cursor → j < g.clusterSize → c.left j = 0
  | _ => True

/-- The bytes of the file that have not been written read as zero. -/
def UnwrittenZero (g : Bpb) (c : Session) : Prop :=
  ∀ out j, j < c.size → j ∉ c.written → readFile g out c.file c.state j 1 = some [0]

/-! ## What is known of every byte -/

/-- The handle agrees with the disk, and a byte that has not been written is the one
left in the first cluster, or zero behind it. -/
structure Tracks (g : Bpb) (dir : List ℕ) (c : Session) (l : List ℕ) : Prop where
  opened : OpenFile g c.state c.file l dir
  taken : ∀ t ∈ c.state.taken, ValidCluster g t
  inside : ∀ j ∈ c.written, j < c.size
  bytes : ∀ j, j < l.length * g.clusterSize → j ∉ c.written →
    chainByte g c.state.disk l j = if j < g.clusterSize then c.left j else 0

/-- No byte left in the first cluster is visible. -/
def Clean (g : Bpb) (c : Session) : Prop :=
  ∀ j, j < c.size → j ∉ c.written → j < g.clusterSize → c.left j = 0

theorem Tracks.unwrittenZero_iff (hg : Geometry g) (h : Tracks g dir c l) :
    c.UnwrittenZero g ↔ c.Clean g := by
  have hroom := (h.opened.sizeFits hg).enough
  have hread : ∀ out j, j < c.size → j ∉ c.written → readFile g out c.file c.state j 1 =
      some [if j < g.clusterSize then c.left j else 0] := by
    intro out j hj hnot
    rw [readFile_spec hg h.opened (show j + 1 ≤ c.size from hj) out,
      ← h.bytes j (lt_of_lt_of_le hj hroom) hnot]
    rfl
  constructor
  · intro hzero j hj hnot hfirst
    have hbyte := hread (fun _ => 0) j hj hnot
    rw [hzero _ j hj hnot, if_pos hfirst] at hbyte
    exact (List.cons.inj (Option.some_inj.mp hbyte)).1.symm
  · intro hclean out j hj hnot
    rw [hread out j hj hnot]
    split
    · next hfirst => rw [hclean j hj hnot hfirst]
    · rfl

theorem tracks_emptied {s : State} {file : FatFile} (hpos : 0 < g.clusterSize)
    (h : OpenFile g s file l dir) (hsize : file.fatDir.dirFileSize = 0)
    (htaken : ∀ t ∈ s.taken, ValidCluster g t) : Tracks g dir (emptied g file s) l where
  opened := h
  taken := htaken
  inside _ hj := absurd hj (Set.notMem_empty _)
  bytes j hj _ := by
    rw [h.eq_singleton hpos hsize, List.length_singleton, Nat.one_mul] at hj
    rw [h.eq_singleton hpos hsize, if_pos hj]
    exact chainByte_head hj

/-! ## One call -/

/-- A write adds its bytes, and zeros behind the clusters the file had. -/
theorem Tracks.fwrite (hg : Geometry g) (hfat : 3 * g.secPerClus ≤ g.fatSz32)
    (h : Tracks g dir c l) {data : ℕ → UInt8} {n : ℕ} (hroom : Room g c.state.disk c.file n)
    (hcall : c.call g (.fwrite data n) = some c') :
    (∃ l', Tracks g dir c' l') ∧ c'.size = max c.size (c.file.cursor + n) ∧
      c'.written = c.written ∪ {j | c.file.cursor ≤ j ∧ j < c.file.cursor + n} ∧
      c'.left = c.left := by
  obtain ⟨file, s, hwrite, rfl⟩ := call_fwrite hcall
  obtain ⟨new, hopened, -, hsize, hstored, htaken⟩ := fatFwrite_spec hg hfat h.opened
    (hroom.margin hg h.opened.chain) hwrite
    fun written s₁ hloop => hroom.valid hg hfat h.opened.chain h.taken hloop
  have hlen := h.opened.chain.chain.length_pos
  have hone : g.clusterSize ≤ l.length * g.clusterSize := Nat.le_mul_of_pos_left _ hlen
  refine ⟨⟨l ++ new, hopened, ?_, ?_, ?_⟩, hsize, rfl, rfl⟩
  · intro t ht
    dsimp only at ht
    rw [htaken] at ht
    rcases List.mem_append.mp ht with hnew | hold
    · apply hopened.chain.valid
      exact List.mem_append_right l (List.mem_reverse.mp hnew)
    · exact h.taken t hold
  · rintro j (hold | hnew)
    · exact lt_of_lt_of_le (h.inside j hold) ((le_max_left _ _).trans hsize.ge)
    · exact lt_of_lt_of_le hnew.2 ((le_max_right _ _).trans hsize.ge)
  · intro j hj hnot
    obtain ⟨hold, hnew⟩ := not_or.mp hnot
    dsimp only
    rw [hstored.bytes j hj,
      if_neg (show ¬ (c.file.cursor ≤ j ∧ j < c.file.cursor + n) from hnew)]
    split
    · next hin => exact h.bytes j hin hold
    · next hout => rw [if_neg (by omega)]

/-- Opening the file changes nothing, unless it is truncated. -/
theorem Tracks.fopen (hg : Geometry g) (hfat : 3 * g.secPerClus ≤ g.fatSz32)
    (h : Tracks g dir c l) {uninitialized : DirEntry} {rootDir : FatFile} {path : List UInt8}
    {mode : OpenMode}
    (hfinds : FindsFile g c.state dir c.file.firstParentCluster c.file.entryPosition rootDir path)
    (hcall : c.call g (.fopen uninitialized rootDir path mode) = some c') :
    (∃ l', Tracks g dir c' l') ∧ (c'.size = 0 ∨
      c'.size = c.size ∧ c'.written = c.written ∧ c'.left = c.left) := by
  obtain ⟨file, s, hopen, rfl⟩ := call_fopen hcall
  obtain ⟨r, s₁, hfind, hfound, hsame, hdisk, htaken', hopened⟩ := hfinds.opened h.opened
  have htaken : ∀ t ∈ s₁.taken, ValidCluster g t := by
    rw [htaken']
    exact h.taken
  have hsize : r.fileOut.fatDir.dirFileSize = c.size := by rw [hsame, size]
  unfold fatFopen at hopen
  rw [hfind, Option.bind_eq_bind, Option.bind_some] at hopen
  dsimp only at hopen
  rw [hfound] at hopen
  cases mode with
  | read =>
      cases hopen
      rw [if_neg (show OpenMode.read ≠ .write by decide)]
      refine ⟨⟨l, hopened, htaken, ?_, ?_⟩, .inr ⟨hsize, rfl, rfl⟩⟩
      · intro j hj
        exact (h.inside j hj).trans_eq hsize.symm
      · intro j hj hnot
        rw [← h.bytes j hj hnot]
        exact congrArg (fun disk => chainByte g disk l j) hdisk
  | append =>
      cases hopen
      rw [if_neg (show OpenMode.append ≠ .write by decide)]
      refine ⟨⟨l, hopened.moved _, htaken, ?_, ?_⟩, .inr ⟨hsize, rfl, rfl⟩⟩
      · intro j hj
        exact (h.inside j hj).trans_eq hsize.symm
      · intro j hj hnot
        rw [← h.bytes j hj hnot]
        exact congrArg (fun disk => chainByte g disk l j) hdisk
  | write =>
      obtain ⟨s₂, htruncate, hcut⟩ := truncateFile_spec hg hfat hopened.chain hopened.parent
        hopened.parent_lt hopened.inside hopened.apart
      dsimp only at hopen
      rw [if_pos rfl, htruncate] at hopen
      cases hopen
      rw [if_pos rfl]
      have hzero : (r.fileOut.fatDir.setFileSize 0).dirFileSize = 0 :=
        (DirEntry.dirFileSize_setFileSize _ _).trans (Nat.zero_mod _)
      refine ⟨⟨_, tracks_emptied hg.clusterSize_pos
        (hcut.opened hg.clusterSize_pos hopened) hzero ?_⟩, .inl hzero⟩
      rw [hcut.taken]
      exact htaken

/-- A call keeps the bytes of the first cluster out of sight exactly when it leaves
no gap over them. -/
theorem Tracks.call (hg : Geometry g) (hfat : 3 * g.secPerClus ≤ g.fatSz32) (h : Tracks g dir c l)
    (hclean : c.Clean g) {a : Call} (hserved : c.Served g dir a) (hcall : c.call g a = some c') :
    ∃ l', Tracks g dir c' l' ∧ (c'.Clean g ↔ c.GapClear g a) := by
  cases a with
  | fopen uninitialized rootDir path mode =>
      obtain ⟨⟨l', htracks⟩, hcases⟩ := h.fopen hg hfat hserved hcall
      refine ⟨l', htracks, iff_of_true ?_ trivial⟩
      intro j hj hnot hfirst
      rcases hcases with hzero | ⟨hsize, hwritten, hleft⟩
      · rw [hzero] at hj
        exact absurd hj (Nat.not_lt_zero j)
      · rw [hsize] at hj
        rw [hwritten] at hnot
        rw [hleft]
        exact hclean j hj hnot hfirst
  | fseek offset origin =>
      cases hcall
      obtain ⟨p, hp⟩ := fatFseek_eq c.file offset origin
      rw [hp]
      exact ⟨l, ⟨h.opened.moved p, h.taken, h.inside, h.bytes⟩, iff_of_true hclean trivial⟩
  | fwrite data n =>
      obtain ⟨⟨l', htracks⟩, hsize, hwritten, hleft⟩ := h.fwrite hg hfat hserved hcall
      refine ⟨l', htracks, ?_⟩
      unfold Clean
      rw [hsize, hwritten, hleft]
      constructor
      · intro hall j hend hgap hfirst
        apply hall j (lt_of_lt_of_le hgap ((Nat.le_add_right _ n).trans (le_max_right _ _))) _ hfirst
        rintro (hold | hnew)
        · exact absurd (h.inside j hold) (not_lt.mpr hend)
        · exact absurd hnew.1 (not_le.mpr hgap)
      · intro hgap j hj hnot hfirst
        obtain ⟨hold, hnew⟩ := not_or.mp hnot
        rcases lt_or_ge j c.size with hin | hout
        · exact hclean j hin hold hfirst
        · refine hgap j hout ?_ hfirst
          have hend : j < c.file.cursor + n := (lt_max_iff.mp hj).resolve_left (not_lt.mpr hout)
          by_contra hbehind
          exact hnew ⟨not_lt.mp hbehind, hend⟩

/-- The invariant of a run. -/
def Tracked (g : Bpb) (dir : List ℕ) (c : Session) : Prop := ∃ l, Tracks g dir c l

/-- So a call keeps the unwritten bytes zero exactly then. -/
theorem Tracked.call (hg : Geometry g) (hfat : 3 * g.secPerClus ≤ g.fatSz32)
    (h : c.Tracked g dir) (hzero : c.UnwrittenZero g) {a : Call} (hserved : c.Served g dir a)
    (hcall : c.call g a = some c') :
    c'.Tracked g dir ∧ (c'.UnwrittenZero g ↔ c.GapClear g a) := by
  obtain ⟨l, htracks⟩ := h
  obtain ⟨l', htracks', hclean⟩ :=
    htracks.call hg hfat ((htracks.unwrittenZero_iff hg).mp hzero) hserved hcall
  exact ⟨⟨l', htracks'⟩, (htracks'.unwrittenZero_iff hg).trans hclean⟩

end Session

/-! ## Gaps -/

section

variable {s : State} {file : FatFile}

/-- From the moment a file is empty, in every run of calls on it, the bytes that have
not been written read as zero exactly when no write leaves a gap over bytes of its
first cluster that were not zero at the last truncation. -/
theorem run_unwrittenZero_iff (hg : Geometry g) (hfat : 3 * g.secPerClus ≤ g.fatSz32)
    (h : OpenFile g s file l dir) (hsize : file.fatDir.dirFileSize = 0)
    (htaken : ∀ t ∈ s.taken, ValidCluster g t) {calls : List Call}
    (hserved : Along (Session.call g) (Session.Served g dir) (.emptied g file s) calls)
    (hrun : (run (Session.call g) (.emptied g file s) calls).isSome) :
    Throughout (Session.call g) (Session.UnwrittenZero g) (.emptied g file s) calls ↔
      Along (Session.call g) (Session.GapClear g) (.emptied g file s) calls := by
  have htracks := Session.tracks_emptied hg.clusterSize_pos h hsize htaken
  have hclean : (Session.emptied g file s).Clean g := by
    intro j hj
    change j < file.fatDir.dirFileSize at hj
    rw [hsize] at hj
    exact absurd hj (Nat.not_lt_zero j)
  have hstart : Session.Tracked g dir (.emptied g file s) := ⟨l, htracks⟩
  apply throughout_iff _ hstart ((htracks.unwrittenZero_iff hg).mpr hclean) hserved hrun
  intro c a c' hc hzero hcalled hcall
  exact hc.call hg hfat hzero hcalled hcall

end

/-- Ten bytes, and a byte behind a gap of ninety. -/
def gapRun : List Call :=
  [.fwrite (fun _ => 0x41) 10, .fseek 100 0, .fwrite (fun _ => 0x42) 1]

/-- The first cluster of `A` holds zeros, so the gap over it is clear. -/
theorem run_unwrittenZero_iff_gap :
    ∃ c, run (Session.call smallVolume) (.emptied smallVolume emptyA emptyListed) gapRun = some c ∧
      c.UnwrittenZero smallVolume := by
  have hempty : emptyA.fatDir.dirFileSize = 0 := by decide +kernel
  have hzeros : ∀ j < 512, (Session.emptied smallVolume emptyA emptyListed).left j = 0 := by
    decide +kernel
  have hcluster : smallVolume.clusterSize = 512 := by decide +kernel
  have hrun : (run (Session.call smallVolume) (.emptied smallVolume emptyA emptyListed)
      gapRun).isSome := by
    decide +kernel
  have hcursor : ∀ file : FatFile, (fatFseek file 100 0).cursor = 100 := by
    intro file
    exact u32_of_lt (by decide)
  obtain ⟨c, hc⟩ := Option.isSome_iff_exists.mp hrun
  refine ⟨c, hc, (run_unwrittenZero_iff smallVolume_geometry (by decide) emptyA_open hempty
    (fun t ht => absurd ht (List.not_mem_nil)) ?_ hrun).mpr ?_ |>.last hc⟩
  · refine ⟨room_smallVolume _ (by decide), fun c₁ h₁ => ⟨trivial, fun c₂ h₂ => ⟨?_, fun _ _ => trivial⟩⟩⟩
    cases h₂
    apply room_smallVolume
    dsimp only
    rw [hcursor]
    decide
  · refine ⟨?_, fun c₁ h₁ => ⟨trivial, fun c₂ h₂ => ⟨?_, fun _ _ => trivial⟩⟩⟩
    · intro j hj hlt
      exact absurd hlt (Nat.not_lt_zero j)
    · intro j hj hlt hfirst
      cases h₂
      dsimp only
      obtain ⟨file, s, -, rfl⟩ := Session.call_fwrite h₁
      exact hzeros j (hfirst.trans_eq hcluster)

/-- Ten bytes, a truncation, and a byte behind the end of the emptied file. -/
def truncatedRun : List Call :=
  [.fwrite (fun _ => 0x41) 10, .fopen .zero fatFileDefault [0x41] .write, .fseek 5 0,
    .fwrite (fun _ => 0x42) 1]

/-- The gap in front of the byte shows what the file held before it was truncated. -/
theorem gap_shows_old_bytes :
    ¬ Throughout (Session.call smallVolume) (Session.UnwrittenZero smallVolume)
      (.emptied smallVolume emptyA emptyListed) truncatedRun := by
  intro h
  have hrun : (run (Session.call smallVolume) (.emptied smallVolume emptyA emptyListed)
      truncatedRun).map (fun c => (c.size, readFile smallVolume (fun _ => 0) c.file c.state 0 1)) =
        some (6, some [0x41]) := by decide +kernel
  obtain ⟨c, hc, heq⟩ := Option.map_eq_some_iff.mp hrun
  obtain ⟨hsize, hread⟩ := Prod.mk.inj heq
  have hunwritten : 0 ∉ c.written := by
    obtain ⟨c₁, -, hc⟩ := Option.bind_eq_some_iff.mp hc
    obtain ⟨c₂, htruncate, hc⟩ := Option.bind_eq_some_iff.mp hc
    obtain ⟨c₃, hwrite, hc⟩ := Option.bind_eq_some_iff.mp hc
    obtain ⟨file, s, -, rfl⟩ := Session.call_fopen htruncate
    obtain ⟨file', s', -, rfl⟩ := Session.call_fwrite hwrite
    cases hc
    rintro (hold | ⟨hnew, -⟩)
    · exact hold
    · have hcursor : (fatFseek file 5 0).cursor = 5 := u32_of_lt (by decide)
      dsimp only at hnew
      rw [if_pos rfl, Session.emptied, hcursor] at hnew
      exact absurd hnew (by decide)
  have hzero := h.last hc (fun _ => 0) 0 (by rw [hsize]; decide) hunwritten
  rw [hzero] at hread
  exact absurd hread (by decide)

end Neos.Fat
