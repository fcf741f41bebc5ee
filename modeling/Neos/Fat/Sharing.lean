import Neos.Library.PartialSteps
import Neos.Fat.Handles

/-!
# Several handles on one file

Each handle has its own copy of the directory entry and stores all of it when it has
written behind the size it knows.  So a size that another handle recorded is lost,
unless the write ends behind that size as well.
-/

namespace Neos.Fat

open ByteRange PartialSteps

variable {ι : Type} {g : Bpb} {l dir : List ℕ} {parent position : ℕ}

/-! ## Interleaved calls -/

/-- A call through one of the handles. -/
inductive HandleCall (ι : Type)
  | fseek (i : ι) (offset origin : ℤ)
  | fwrite (i : ι) (dataIn : ℕ → UInt8) (dataSize : ℕ)

/-- The handles, the largest of the first size and all ends of writes, and the byte
that the last write left at each offset. -/
structure Sharing (ι : Type) where
  state : State
  handle : ι → FatFile
  extent : ℕ
  last : ℕ → Option UInt8

namespace Sharing

variable {c c' : Sharing ι}

/-- The size that the directory entry records. -/
def recorded (g : Bpb) (dir : List ℕ) (position : ℕ) (c : Sharing ι) : ℕ :=
  (entryAt g c.state.disk dir position).dirFileSize

/-- Handles that have just been opened. -/
def opened (g : Bpb) (dir : List ℕ) (position : ℕ) (handle : ι → FatFile) (s : State) :
    Sharing ι :=
  ⟨s, handle, (entryAt g s.disk dir position).dirFileSize, fun _ => none⟩

/-- A write finds free data clusters for what it adds. -/
def Served (g : Bpb) (c : Sharing ι) : HandleCall ι → Prop
  | .fseek _ _ _ => True
  | .fwrite i _ dataSize => Room g c.state.disk (c.handle i) dataSize

/-- A write that goes behind the size its handle knows does not end in front of the
end of the file. -/
def Covering (c : Sharing ι) : HandleCall ι → Prop
  | .fseek _ _ _ => True
  | .fwrite i _ dataSize =>
      (c.handle i).fatDir.dirFileSize < (c.handle i).cursor + dataSize →
        c.extent ≤ (c.handle i).cursor + dataSize

/-- The entry records the largest end, and whoever opens the file again reads the
last byte written at each offset. -/
structure Coherent (g : Bpb) (dir : List ℕ) (parent position : ℕ) (c : Sharing ι) : Prop where
  size : c.recorded g dir position = c.extent
  reads : ∀ uninitialized rootDir path, FindsFile g c.state dir parent position rootDir path →
    ∃ file s, fatFopen g uninitialized rootDir path .read c.state = some (true, file, s) ∧
      ∀ out j b, c.last j = some b → readFile g out file s j 1 = some [b]

/-! ## What the handles share -/

/-- A handle on the file with this first cluster and this entry, which may know a
smaller size. -/
structure Refers (parent position first extent : ℕ) (file : FatFile) : Prop where
  first_eq : file.fatDir.dirFstClusLO = first
  parent_eq : file.firstParentCluster = parent
  position_eq : file.entryPosition = position
  size_le : file.fatDir.dirFileSize ≤ extent

/-- All handles refer to the file with the chain `l`, which holds the bytes written;
its length is the one for the largest end. -/
structure Shares (g : Bpb) (dir : List ℕ) (parent position : ℕ) (c : Sharing ι) (l : List ℕ) :
    Prop where
  chain : FileChain g c.state.disk (entryAt g c.state.disk dir position).dirFstClusLO l
  clusters : l.length = max 1 (clustersFor g c.extent)
  directory : FileChain g c.state.disk parent dir
  parent_lt : parent < 2 ^ 16
  room : position + 32 ≤ dir.length * g.clusterSize
  apart : ∀ x ∈ dir, x ∉ l
  handles : ∀ i, Refers parent position (entryAt g c.state.disk dir position).dirFstClusLO
    c.extent (c.handle i)
  taken : ∀ t ∈ c.state.taken, ValidCluster g t
  inside : ∀ j b, c.last j = some b → j < c.extent
  bytes : ∀ j b, c.last j = some b → chainByte g c.state.disk l j = b

/-- The entry of the file agrees with the disk when it records the largest end. -/
theorem Shares.openFile (h : Shares g dir parent position c l)
    (hsize : c.recorded g dir position = c.extent) :
    OpenFile g c.state { fatFileDefault with
      fatDir := entryAt g c.state.disk dir position
      firstParentCluster := parent
      entryPosition := position } l dir := by
  refine ⟨h.chain, ?_, h.directory, h.parent_lt, h.room, h.apart, rfl⟩
  rw [h.clusters, ← hsize]
  rfl

/-- Then the file can be opened again, and all that was written is there. -/
theorem Shares.coherent_iff (hg : Geometry g) (h : Shares g dir parent position c l) :
    c.Coherent g dir parent position ↔ c.recorded g dir position = c.extent := by
  constructor
  · exact Coherent.size
  · intro hsize
    refine ⟨hsize, ?_⟩
    intro uninitialized rootDir path hfinds
    obtain ⟨r, s, hfind, hfound, hsame, hdisk, -, hopened⟩ := hfinds.opened (h.openFile hsize)
    refine ⟨r.fileOut, s, ?_, ?_⟩
    · rw [fatFopen, hfind, Option.bind_eq_bind, Option.bind_some]
      dsimp only
      rw [hfound]
      rfl
    · intro out j b hlast
      have hend : r.fileOut.fatDir.dirFileSize = c.extent := by
        rw [hsame, ← hsize]
        rfl
      rw [readFile_spec hg hopened (by rw [hend]; exact h.inside j b hlast) out, hdisk]
      exact congrArg (fun b => some [b]) (h.bytes j b hlast)

/-! ## One call -/

theorem Refers.mono {first extent extent' : ℕ} {file : FatFile}
    (h : Refers parent position first extent file) (hle : extent ≤ extent') :
    Refers parent position first extent' file :=
  ⟨h.first_eq, h.parent_eq, h.position_eq, h.size_le.trans hle⟩

variable [DecidableEq ι]

/-- A successful call. -/
def call (g : Bpb) (c : Sharing ι) : HandleCall ι → Option (Sharing ι)
  | .fseek i offset origin =>
      some { c with handle := Function.update c.handle i (fatFseek (c.handle i) offset origin) }
  | .fwrite i dataIn dataSize => do
      let (done, file, s) ← fatFwrite g dataIn dataSize (c.handle i) c.state
      let cursor := (c.handle i).cursor
      if done = false then none
      else some {
        state := s
        handle := Function.update c.handle i file
        extent := max c.extent (cursor + dataSize)
        last := fun j =>
          if cursor ≤ j ∧ j < cursor + dataSize then some (dataIn (j - cursor)) else c.last j }

theorem call_fwrite {i : ι} {data : ℕ → UInt8} {n : ℕ}
    (h : c.call g (.fwrite i data n) = some c') :
    ∃ file s, fatFwrite g data n (c.handle i) c.state = some (true, file, s) ∧
      c' = {
        state := s
        handle := Function.update c.handle i file
        extent := max c.extent ((c.handle i).cursor + n)
        last := fun j =>
          if (c.handle i).cursor ≤ j ∧ j < (c.handle i).cursor + n then
            some (data (j - (c.handle i).cursor))
          else c.last j } := by
  obtain ⟨⟨done, file, s⟩, hwrite, hrest⟩ := Option.bind_eq_some_iff.mp h
  cases done with
  | false => cases hrest
  | true =>
      cases hrest
      exact ⟨file, s, hwrite, rfl⟩

/-- A seek moves the cursor of one handle only. -/
theorem Shares.fseek (h : Shares g dir parent position c l) {i : ι} {offset origin : ℤ}
    (hcall : c.call g (.fseek i offset origin) = some c') :
    Shares g dir parent position c' l ∧ c'.recorded g dir position = c.recorded g dir position ∧
      c'.extent = c.extent := by
  cases hcall
  obtain ⟨p, hp⟩ := fatFseek_eq (c.handle i) offset origin
  refine ⟨⟨h.chain, h.clusters, h.directory, h.parent_lt, h.room, h.apart, ?_, h.taken, h.inside,
    h.bytes⟩, rfl, rfl⟩
  intro j
  dsimp only
  rcases eq_or_ne j i with rfl | hne
  · have hrefers := h.handles j
    rw [Function.update_self, hp]
    exact ⟨hrefers.first_eq, hrefers.parent_eq, hrefers.position_eq, hrefers.size_le⟩
  · rw [Function.update_of_ne hne]
    exact h.handles j

/-- A write stores its bytes for all handles, but the size only when it goes behind
the one its own handle knows. -/
theorem Shares.fwrite (hg : Geometry g) (hfat : 3 * g.secPerClus ≤ g.fatSz32)
    (h : Shares g dir parent position c l) {i : ι} {data : ℕ → UInt8} {n : ℕ}
    (hroom : Room g c.state.disk (c.handle i) n) (hcall : c.call g (.fwrite i data n) = some c') :
    (∃ l', Shares g dir parent position c' l') ∧
      c'.extent = max c.extent ((c.handle i).cursor + n) ∧
      c'.recorded g dir position =
        if (c.handle i).fatDir.dirFileSize < (c.handle i).cursor + n then (c.handle i).cursor + n
        else c.recorded g dir position := by
  obtain ⟨file, s, hwrite, rfl⟩ := call_fwrite hcall
  obtain ⟨hfirst, hparent, hposition, hsize⟩ := h.handles i
  have hchain : FileChain g c.state.disk (c.handle i).fatDir.dirFstClusLO l := by
    rw [hfirst]
    exact h.chain
  have hmargin := hroom.margin hg hchain
  obtain ⟨new, hnew⟩ := fatFwrite_rewritten hg hfat hchain (by rw [hparent]; exact h.directory)
    (by rw [hparent]; exact h.parent_lt) (by rw [hposition]; exact h.room) h.apart hmargin hwrite
    fun written s₁ hloop => hroom.valid hg hfat hchain h.taken hloop
  have hstored : ((c.handle i).fatDir.setFileSize ((c.handle i).cursor + n)).dirFileSize =
      (c.handle i).cursor + n := by
    rw [DirEntry.dirFileSize_setFileSize]
    exact Nat.mod_eq_of_lt (by omega)
  have hentry := hnew.entry
  rw [hnew.handle, hposition] at hentry
  dsimp only at hentry
  have hkeep : (entryAt g s.disk dir position).dirFstClusLO =
      (entryAt g c.state.disk dir position).dirFstClusLO := by
    rw [hentry]
    split
    · rw [DirEntry.dirFstClusLO_setFileSize, hfirst]
    · rfl
  have hbefore : ∀ j b, c.last j = some b → j < l.length * g.clusterSize := by
    intro j b hlast
    exact lt_of_lt_of_le (h.inside j b hlast)
      (sizeFits_of_length hg.clusterSize_pos h.clusters).enough
  have hlonger : l.length * g.clusterSize ≤ (l ++ new).length * g.clusterSize := by
    rw [List.length_append]
    exact Nat.mul_le_mul_right _ (Nat.le_add_right _ _)
  refine ⟨⟨l ++ new, ?_, hnew.clusters _ h.clusters, ?_, h.parent_lt, h.room, hnew.apart, ?_, ?_,
    ?_, ?_⟩, rfl, ?_⟩
  · dsimp only
    rw [hkeep, ← hfirst]
    exact hnew.chain
  · rw [← hparent]
    exact hnew.parent
  · intro j
    dsimp only
    rw [hkeep]
    rcases eq_or_ne j i with rfl | hne
    · rw [Function.update_self, hnew.handle]
      refine ⟨?_, hparent, hposition, ?_⟩
      · dsimp only
        split
        · rw [DirEntry.dirFstClusLO_setFileSize, hfirst]
        · exact hfirst
      · dsimp only
        split
        · rw [hstored]
          exact le_max_right _ _
        · exact hsize.trans (le_max_left _ _)
    · rw [Function.update_of_ne hne]
      exact (h.handles j).mono (le_max_left _ _)
  · intro t ht
    dsimp only at ht
    rw [hnew.taken] at ht
    rcases List.mem_append.mp ht with hmem | hold
    · apply hnew.chain.valid
      exact List.mem_append_right l (List.mem_reverse.mp hmem)
    · exact h.taken t hold
  · intro j b hlast
    dsimp only at hlast ⊢
    split at hlast
    · next hin => exact lt_of_lt_of_le hin.2 (le_max_right _ _)
    · exact lt_of_lt_of_le (h.inside j b hlast) (le_max_left _ _)
  · intro j b hlast
    dsimp only at hlast ⊢
    split at hlast
    · next hin =>
        rw [hnew.stored.bytes j (lt_of_lt_of_le hin.2 hnew.stored.enough), if_pos hin]
        exact Option.some_inj.mp hlast
    · next hout =>
        rw [hnew.stored.bytes j (lt_of_lt_of_le (hbefore j b hlast) hlonger), if_neg hout,
          if_pos (hbefore j b hlast)]
        exact h.bytes j b hlast
  · unfold recorded
    dsimp only
    rw [hentry]
    split
    · exact hstored
    · rfl

/-- The invariant of a run. -/
def Shared (g : Bpb) (dir : List ℕ) (parent position : ℕ) (c : Sharing ι) : Prop :=
  ∃ l, Shares g dir parent position c l

/-- A call keeps the file coherent exactly when it covers what it writes over. -/
theorem Shared.call (hg : Geometry g) (hfat : 3 * g.secPerClus ≤ g.fatSz32)
    (h : c.Shared g dir parent position) (hgood : c.Coherent g dir parent position)
    {a : HandleCall ι} (hserved : c.Served g a) (hcall : c.call g a = some c') :
    c'.Shared g dir parent position ∧ (c'.Coherent g dir parent position ↔ c.Covering a) := by
  obtain ⟨l, hl⟩ := h
  have hrecorded := hgood.size
  cases a with
  | fseek i offset origin =>
      obtain ⟨hshares, hsame, hextent⟩ := hl.fseek hcall
      refine ⟨⟨l, hshares⟩, iff_of_true ((hshares.coherent_iff hg).mpr ?_) trivial⟩
      rw [hsame, hextent]
      exact hrecorded
  | fwrite i data n =>
      obtain ⟨⟨l', hshares⟩, hextent, hsame⟩ := hl.fwrite hg hfat hserved hcall
      have hsize := (hl.handles i).size_le
      refine ⟨⟨l', hshares⟩, ?_⟩
      rw [hshares.coherent_iff hg, hsame, hextent, hrecorded]
      unfold Covering
      split
      · next hgrow =>
          constructor
          · intro heq _
            exact heq ▸ le_max_left _ _
          · intro hcover
            exact (max_eq_right (hcover hgrow)).symm
      · next hstay =>
          refine iff_of_true (max_eq_left ?_).symm fun hgrow => absurd hgrow hstay
          exact (not_lt.mp hstay).trans hsize

end Sharing

section

variable [DecidableEq ι] {s : State} {handle : ι → FatFile}

/-- Through handles opened on one file, in every run of seeks and successful writes,
the recorded size is the largest end and the file can be read back exactly when no
write that goes behind the size its handle knows ends in front of the end of the
file. -/
theorem run_coherent_iff (hg : Geometry g) (hfat : 3 * g.secPerClus ≤ g.fatSz32) [Nonempty ι]
    (hopen : ∀ i, OpenFile g s (handle i) l dir)
    (hsame : ∀ i, (handle i).firstParentCluster = parent ∧ (handle i).entryPosition = position)
    (htaken : ∀ t ∈ s.taken, ValidCluster g t) {calls : List (HandleCall ι)}
    (hserved : Along (Sharing.call g) (Sharing.Served g) (.opened g dir position handle s) calls)
    (hrun : (run (Sharing.call g) (.opened g dir position handle s) calls).isSome) :
    Throughout (Sharing.call g) (Sharing.Coherent g dir parent position)
        (.opened g dir position handle s) calls ↔
      Along (Sharing.call g) Sharing.Covering (.opened g dir position handle s) calls := by
  have hentry : ∀ i, entryAt g s.disk dir position = (handle i).fatDir := by
    intro i
    rw [← (hsame i).2]
    exact (hopen i).entry
  obtain ⟨i⟩ := ‹Nonempty ι›
  have hi := hopen i
  have hstart : Sharing.Shares g dir parent position (.opened g dir position handle s) l := by
    refine ⟨?_, ?_, ?_, ?_, ?_, hi.apart, ?_, htaken, fun j b hlast => ?_, fun j b hlast => ?_⟩
    · show FileChain g s.disk (entryAt g s.disk dir position).dirFstClusLO l
      rw [hentry i]
      exact hi.chain
    · show l.length = max 1 (clustersFor g (entryAt g s.disk dir position).dirFileSize)
      rw [hentry i]
      exact hi.clusters
    · rw [← (hsame i).1]
      exact hi.parent
    · rw [← (hsame i).1]
      exact hi.parent_lt
    · rw [← (hsame i).2]
      exact hi.inside
    · intro j
      have hj := hentry j
      refine ⟨?_, (hsame j).1, (hsame j).2, ?_⟩
      · exact congrArg DirEntry.dirFstClusLO hj.symm
      · exact (congrArg DirEntry.dirFileSize hj.symm).le
    · cases hlast
    · cases hlast
  have hshared : Sharing.Shared g dir parent position (.opened g dir position handle s) :=
    ⟨l, hstart⟩
  apply throughout_iff _ hshared ((hstart.coherent_iff hg).mpr rfl) hserved hrun
  intro c a c' hc hgood hcalled hcall
  exact hc.call hg hfat hgood hcalled hcall

end

/-- Ten bytes through one handle, and twenty through the other. -/
def coveringRun : List (HandleCall Bool) :=
  [.fwrite false (fun _ => 0x41) 10, .fwrite true (fun _ => 0x42) 20]

/-- The second write covers the first. -/
theorem run_coherent_iff_covering :
    ∃ c, run (Sharing.call smallVolume)
        (.opened smallVolume [2] 0 (fun _ : Bool => emptyA) emptyListed) coveringRun = some c ∧
      c.Coherent smallVolume [2] 2 0 := by
  have hempty : (Sharing.opened smallVolume [2] 0 (fun _ : Bool => emptyA) emptyListed).extent = 0 := by
    decide +kernel
  have hrun : (run (Sharing.call smallVolume)
      (.opened smallVolume [2] 0 (fun _ : Bool => emptyA) emptyListed) coveringRun).isSome := by
    decide +kernel
  have hsame : ∀ _ : Bool, emptyA.firstParentCluster = 2 ∧ emptyA.entryPosition = 0 :=
    fun _ => ⟨rfl, rfl⟩
  obtain ⟨c, hc⟩ := Option.isSome_iff_exists.mp hrun
  refine ⟨c, hc, (run_coherent_iff smallVolume_geometry (by decide) (fun _ => emptyA_open)
    hsame (fun t ht => absurd ht List.not_mem_nil) ?_ hrun).mpr ?_ |>.last hc⟩
  · refine ⟨room_smallVolume _ (by decide), fun c₁ h₁ => ⟨?_, fun _ _ => trivial⟩⟩
    obtain ⟨file, s, -, rfl⟩ := Sharing.call_fwrite h₁
    exact room_smallVolume _ (show emptyA.cursor + 20 ≤ 512 by decide)
  · refine ⟨fun _ => hempty.le.trans (Nat.zero_le _), fun c₁ h₁ => ⟨fun _ => ?_, fun _ _ => trivial⟩⟩
    obtain ⟨file, s, -, rfl⟩ := Sharing.call_fwrite h₁
    dsimp only
    rw [hempty]
    show max 0 (emptyA.cursor + 10) ≤ emptyA.cursor + 20
    decide

/-- A hundred bytes through one handle, and ten through the other. -/
def lostRun : List (HandleCall Bool) :=
  [.fwrite false (fun _ => 0x41) 100, .fwrite true (fun _ => 0x42) 10]

/-- The second handle still knows the size zero, and records ten. -/
theorem recorded_size_lost :
    ¬ Throughout (Sharing.call smallVolume) (Sharing.Coherent smallVolume [2] 2 0)
      (.opened smallVolume [2] 0 (fun _ : Bool => emptyA) emptyListed) lostRun := by
  intro h
  have hrun : (run (Sharing.call smallVolume)
      (.opened smallVolume [2] 0 (fun _ : Bool => emptyA) emptyListed) lostRun).map
        (fun c => (c.recorded smallVolume [2] 0, c.extent)) = some (10, 100) := by decide +kernel
  obtain ⟨c, hc, heq⟩ := Option.map_eq_some_iff.mp hrun
  obtain ⟨hrecorded, hextent⟩ := Prod.mk.inj heq
  have hsize := (h.last hc).size
  rw [hrecorded, hextent] at hsize
  exact absurd hsize (by decide)

end Neos.Fat
