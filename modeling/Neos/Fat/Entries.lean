import Neos.Fat.Writing

/-!
# Directory entries

The fields of an entry, the handle that `fat_update_entry` builds on a
directory, and `fat_update_entry` itself: it stores the entry of a handle at its
place in the parent directory.
-/

namespace Neos.Fat

open ByteRange

variable {g : Bpb} {s s' : State} {l dir : List ℕ} {data : ℕ → UInt8} {n : ℕ}

/-! ## Fields -/

namespace DirEntry

theorem buffer_ofBuffer (m : ℕ → UInt8) {i : ℕ} (h : i < 32) : (ofBuffer m).buffer i = m i := by
  have hget := getD_readBytes m 0 h
  rwa [Nat.zero_add] at hget

/-- An entry is determined by its bytes. -/
theorem ext_buffer {e e' : DirEntry} (h : ∀ i, i < 32 → e.buffer i = e'.buffer i) : e = e' := by
  obtain ⟨bytes, hsize⟩ := e
  obtain ⟨bytes', hsize'⟩ := e'
  congr 1
  apply List.ext_getElem
  · rw [hsize, hsize']
  · intro i hi hi'
    have hbyte := h i (by omega)
    unfold buffer at hbyte
    rwa [List.getD_eq_getElem _ _ hi, List.getD_eq_getElem _ _ hi'] at hbyte

theorem field_ofBuffer (m : ℕ → UInt8) {offset k : ℕ} (h : offset + k ≤ 32) :
    (ofBuffer m).field offset k = leValue (readBytes m offset k) := by
  unfold field
  congr 1
  apply readBytes_congr
  intro i hi
  exact buffer_ofBuffer m (by omega)

theorem field_setField_self (e : DirEntry) {offset k : ℕ} (v : ℕ) (h : offset + k ≤ 32) :
    (e.setField offset k v).field offset k = v % 2 ^ (8 * k) := by
  have hread := readBytes_writeBytes_self e.buffer offset (leBytes k v)
  rw [length_leBytes] at hread
  rw [setField, field_ofBuffer _ h, hread, leValue_leBytes]

theorem field_setField_of_disjoint (e : DirEntry) {offset k offset' k' : ℕ} (v : ℕ)
    (hdisj : offset' + k' ≤ offset ∨ offset + k ≤ offset') (h : offset' + k' ≤ 32) :
    (e.setField offset k v).field offset' k' = e.field offset' k' := by
  rw [setField, field_ofBuffer _ h, field,
    readBytes_writeBytes_of_disjoint (by rwa [length_leBytes])]

theorem buffer_setField_of_disjoint (e : DirEntry) {offset k i : ℕ} (v : ℕ)
    (hdisj : i < offset ∨ offset + k ≤ i) (h : i < 32) :
    (e.setField offset k v).buffer i = e.buffer i := by
  rw [setField, buffer_ofBuffer _ h, writeBytes_outside (by rwa [length_leBytes])]

theorem field_lt (e : DirEntry) (offset k : ℕ) : e.field offset k < 2 ^ (8 * k) := by
  have h := leValue_lt (readBytes e.buffer offset k)
  rwa [length_readBytes] at h

theorem dirFstClusLO_lt (e : DirEntry) : e.dirFstClusLO < 2 ^ 16 := e.field_lt 26 2

theorem dirFileSize_lt (e : DirEntry) : e.dirFileSize < 2 ^ 32 := e.field_lt 28 4

@[simp] theorem dirFileSize_setFileSize (e : DirEntry) (v : ℕ) :
    (e.setFileSize v).dirFileSize = v % 2 ^ 32 :=
  e.field_setField_self v (by decide)

@[simp] theorem dirFstClusLO_setFileSize (e : DirEntry) (v : ℕ) :
    (e.setFileSize v).dirFstClusLO = e.dirFstClusLO :=
  e.field_setField_of_disjoint v (by decide) (by decide)

@[simp] theorem dirFstClusLO_setFstClusLO (e : DirEntry) (v : ℕ) :
    (e.setFstClusLO v).dirFstClusLO = v % 2 ^ 16 :=
  e.field_setField_self v (by decide)

end DirEntry

/-! ## The handle on a directory -/

/-- The handle on a directory of `count` clusters. -/
def dirHandle (g : Bpb) (first count : ℕ) : FatFile :=
  { fatFileDefault with
    fatDir := (DirEntry.zero.setFstClusLO first).setFileSize
      (u32 (count * g.secPerClus * g.bytsPerSec)) }

theorem dirHandle_first {first : ℕ} (hfirst : first < 2 ^ 16) (count : ℕ) :
    (dirHandle g first count).fatDir.dirFstClusLO = first := by
  rw [dirHandle, DirEntry.dirFstClusLO_setFileSize, DirEntry.dirFstClusLO_setFstClusLO]
  exact Nat.mod_eq_of_lt hfirst

theorem dirHandle_size (hg : Geometry g) {count : ℕ} (hbytes : count * g.clusterSize < 2 ^ 32)
    (first : ℕ) : (dirHandle g first count).fatDir.dirFileSize = count * g.clusterSize := by
  have hsize : count * g.secPerClus * g.bytsPerSec = count * g.clusterSize := by
    rw [hg.clusterSize_eq, hg.bytsPerSec, mul_assoc]
  rw [dirHandle, DirEntry.dirFileSize_setFileSize, hsize, u32_of_lt hbytes]
  exact Nat.mod_eq_of_lt hbytes

/-- The handle on a directory covers all its clusters. -/
theorem parentHandle_spec (hg : Geometry g) {first : ℕ} (hfirst : first < 2 ^ 16)
    (h : FileChain g s.disk first dir) :
    ∃ s', parentHandle g first s = some (dirHandle g first dir.length, s') ∧ Looked s s' := by
  have hLO : (DirEntry.zero.setFstClusLO first).dirFstClusLO = first := by
    rw [DirEntry.dirFstClusLO_setFstClusLO]
    exact Nat.mod_eq_of_lt hfirst
  obtain ⟨s', hcount, hlooked⟩ := fatFileClusterCount_spec hg
    { fatFileDefault with fatDir := DirEntry.zero.setFstClusLO first } (by rwa [hLO])
  exact ⟨s', Option.bind_eq_some_iff.mpr ⟨_, hcount, rfl⟩, hlooked⟩

/-! ## `fat_fwrite` around its loop -/

/-- A call keeps the record of the clusters taken. -/
def Keeps (write : Write) : Prop :=
  ∀ data n file s r, write data n file s = some r → ∀ t ∈ s.taken, t ∈ r.2.2.taken

theorem clusterCountLoop_taken :
    ∀ {rounds c count : ℕ} {s : State} {r : ℕ × State},
      clusterCountLoop g rounds c count s = some r → r.2.taken = s.taken
  | rounds + 1, c, count, s, r, h => by
      have hkeep : (fatReadFatEntry g s c true).2.taken = s.taken := by
        rw [fatReadFatEntry_eq, loadSector]
        split <;> rfl
      unfold clusterCountLoop at h
      dsimp only at h
      split at h
      · rw [← Option.some_inj.mp h]
      · split at h
        · rw [← Option.some_inj.mp h, hkeep]
        · split at h
          · rw [← Option.some_inj.mp h, hkeep]
          · split at h
            · rw [← Option.some_inj.mp h, hkeep]
            · rw [clusterCountLoop_taken h, hkeep]

theorem parentHandle_taken {first : ℕ} {r : FatFile × State} (h : parentHandle g first s = some r) :
    r.2.taken = s.taken := by
  obtain ⟨⟨count, s₁⟩, hcount, hrest⟩ := Option.bind_eq_some_iff.mp h
  rw [← Option.some_inj.mp hrest]
  exact clusterCountLoop_taken hcount

theorem updateEntryWith_taken {write : Write} (hwrite : Keeps write) {file : FatFile}
    (h : updateEntryWith g write file s = some s') : ∀ t ∈ s.taken, t ∈ s'.taken := by
  intro t ht
  unfold updateEntryWith at h
  split at h
  · rwa [← Option.some_inj.mp h]
  · obtain ⟨⟨parent, s₁⟩, hparent, hrest⟩ := Option.bind_eq_some_iff.mp h
    obtain ⟨⟨b, f, s₂⟩, hw, hrest⟩ := Option.bind_eq_some_iff.mp hrest
    rw [← Option.some_inj.mp hrest]
    apply hwrite _ _ _ _ _ hw
    rwa [parentHandle_taken hparent]

theorem fwriteWith_taken {update : FatFile → State → Option State}
    (hupdate : ∀ file s s', update file s = some s' → ∀ t ∈ s.taken, t ∈ s'.taken) :
    Keeps (fwriteWith g update) := by
  intro data n file s r h t ht
  obtain ⟨⟨written, s₁⟩, hloop, hrest⟩ := Option.bind_eq_some_iff.mp h
  have hmem := fwriteLoop_taken hloop t ht
  cases written with
  | none => rwa [← Option.some_inj.mp hrest]
  | some total =>
      dsimp only at hrest
      split at hrest
      · obtain ⟨s₂, hup, hrest⟩ := Option.bind_eq_some_iff.mp hrest
        rw [← Option.some_inj.mp hrest]
        exact hupdate _ _ _ hup t hmem
      · rwa [← Option.some_inj.mp hrest]

theorem fwriteNested_taken : ∀ depth : ℕ, Keeps (fwriteNested g depth)
  | 0 => fun _ _ _ _ _ h => nomatch h
  | depth + 1 => fwriteWith_taken fun _ _ _ h => updateEntryWith_taken (fwriteNested_taken depth) h

theorem FileChain.growing (hg : Geometry g) {first : ℕ} (h : FileChain g s.disk first l) :
    Growing g s first l := by
  refine ⟨h.chain.weaken (fun _ hmark => .inr hmark) ?_, h.valid⟩
  intro x hx hopen
  have hvalid := h.valid x hx
  rcases hopen with hzero | hmark
  · exact (hvalid.not_special hg).1 hzero
  · exact hvalid.not_endMark hg hmark

/-- The loop on a whole file. -/
theorem fwriteLoop_file (hg : Geometry g) (hfat : 3 * g.secPerClus ≤ g.fatSz32) {file : FatFile}
    (hpn : file.cursor + n < 2 ^ 32) {first : ℕ} (h : FileChain g s.disk first l)
    {r : Option ℕ × State}
    (hend : file.cursor + n ≤ l.length * g.clusterSize ∨
      file.cursor + n + 2 ^ 17 ≤ 2 ^ 32 ∧ ∀ t ∈ r.2.taken, ValidCluster g t)
    (hloop : fwriteLoop g data n file loopBound first 0 0 s = some r) :
    (r.1 = none ∧ l.length * g.clusterSize < file.cursor + n) ∨
      (r.1 = some n ∧ ∃ new, Written g data file.cursor n 0 s r.2 first l new) := by
  have hbytes := h.bytes_lt hg
  have hzero : min n (0 - file.cursor) = 0 := by omega
  have hspec := fwriteLoop_spec (a := 0) (r := r) hg hfat data hpn (h.growing hg)
    (by rwa [Nat.zero_add]) (by rwa [Nat.zero_add]) (by rwa [hzero])
  rwa [Nat.zero_add] at hspec

/-- When the data fits the loop on a whole file takes no cluster. -/
theorem fwriteLoop_inside (hg : Geometry g) (hfat : 3 * g.secPerClus ≤ g.fatSz32)
    (data : ℕ → UInt8) (file : FatFile) {first : ℕ} (h : FileChain g s.disk first l)
    (hroom : file.cursor + n ≤ l.length * g.clusterSize) :
    ∃ s', fwriteLoop g data n file loopBound first 0 0 s = some (some n, s') ∧
      Written g data file.cursor n 0 s s' first l [] := by
  have hbytes := h.bytes_lt hg
  have hzero : min n (0 - file.cursor) = 0 := by omega
  have hpn : file.cursor + n < 2 ^ 32 := by omega
  obtain ⟨r, hloop, htaken⟩ := fwriteLoop_fits (a := 0) hg hfat data hpn (h.growing hg)
    (h.length_lt hg).le (by rwa [Nat.zero_add]) (by rwa [Nat.zero_add])
  rw [hzero] at hloop
  rcases fwriteLoop_file hg hfat hpn h (.inl hroom) hloop with ⟨-, hless⟩ | ⟨hsome, new, hwritten⟩
  · exact absurd hroom (not_le.mpr hless)
  · have hnil : new = [] := by
      have htaken' := hwritten.taken
      rw [htaken, List.self_eq_append_left] at htaken'
      exact List.reverse_eq_nil_iff.mp htaken'
    subst hnil
    obtain ⟨written, s'⟩ := r
    dsimp only at hsome hwritten
    exact ⟨s', by rw [hloop, hsome], hwritten⟩

/-! ## Storing an entry -/

/-- The bytes of the entry at a place in a directory. -/
def entryAt (g : Bpb) (disk : ℕ → UInt8) (dir : List ℕ) (position : ℕ) : DirEntry :=
  .ofBuffer fun i => chainByte g disk dir (position + i)

theorem Written.of_looked {s₁ : State} {p c : ℕ} {rest new : List ℕ} (hlooked : Looked s s₁)
    (h : Written g data p n 0 s₁ s' c rest new) : Written g data p n 0 s s' c rest new := by
  obtain ⟨hdisk, htaken, -⟩ := hlooked
  obtain ⟨hchain, hfresh, hentry, hother, hbytes, henough, hneeded, htaken'⟩ := h
  rw [hdisk] at hfresh hentry hother hbytes
  rw [htaken] at htaken'
  exact ⟨hchain, hfresh, hentry, hother, hbytes, henough, hneeded, htaken'⟩

/-- A write inside a file of whole clusters takes no cluster and leaves the size
of the file alone. -/
theorem fwriteWith_inside (hg : Geometry g) (hfat : 3 * g.secPerClus ≤ g.fatSz32)
    (update : FatFile → State → Option State) (data : ℕ → UInt8) (file : FatFile)
    (h : FileChain g s.disk file.fatDir.dirFstClusLO l)
    (hsize : file.fatDir.dirFileSize = l.length * g.clusterSize)
    (hroom : file.cursor + n ≤ l.length * g.clusterSize) :
    ∃ s', fwriteWith g update data n file s =
        some (true, { file with cursor := file.cursor + n }, s') ∧
      Written g data file.cursor n 0 s s' file.fatDir.dirFstClusLO l [] := by
  have hbytes := h.bytes_lt hg
  obtain ⟨s', hloop, hwritten⟩ := fwriteLoop_inside hg hfat data file h hroom
  have hend : u32 (file.cursor + n) = file.cursor + n := u32_of_lt (by omega)
  have hgrow : ¬ file.cursor + n > file.fatDir.dirFileSize := by
    rw [hsize]
    omega
  refine ⟨s', ?_, hwritten⟩
  unfold fwriteWith
  rw [hloop, Option.bind_eq_bind, Option.bind_some]
  dsimp only
  rw [hend, if_neg hgrow]
  rfl

/-- `fat_update_entry` writes the entry of the handle into the parent directory. -/
theorem updateEntryWith_spec (hg : Geometry g) (hfat : 3 * g.secPerClus ≤ g.fatSz32)
    (update : FatFile → State → Option State) (file : FatFile)
    (hfirst : 2 ≤ file.firstParentCluster) (hfirst' : file.firstParentCluster < 2 ^ 16)
    (h : FileChain g s.disk file.firstParentCluster dir)
    (hroom : file.entryPosition + 32 ≤ dir.length * g.clusterSize) :
    ∃ s', updateEntryWith g (fwriteWith g update) file s = some s' ∧
      Written g file.fatDir.buffer file.entryPosition 32 0 s s' file.firstParentCluster dir [] := by
  have hbytes := h.bytes_lt hg
  obtain ⟨s₁, hparent, hlooked⟩ := parentHandle_spec hg hfirst' h
  have hcursor : (fatFseekSet (dirHandle g file.firstParentCluster dir.length)
      file.entryPosition).cursor = file.entryPosition := u32_of_lt (by omega)
  have hdir : (fatFseekSet (dirHandle g file.firstParentCluster dir.length)
      file.entryPosition).fatDir.dirFstClusLO = file.firstParentCluster :=
    dirHandle_first hfirst' dir.length
  have h₁ : FileChain g s₁.disk file.firstParentCluster dir := by
    rw [hlooked.disk]
    exact h
  obtain ⟨s', hwrite, hwritten⟩ := fwriteWith_inside (n := 32) (s := s₁) (l := dir) hg hfat update
    file.fatDir.buffer (fatFseekSet (dirHandle g file.firstParentCluster dir.length)
      file.entryPosition) (by rwa [hdir]) (dirHandle_size hg hbytes _) (by rwa [hcursor])
  rw [hcursor, hdir] at hwritten
  refine ⟨s', ?_, hwritten.of_looked hlooked⟩
  unfold updateEntryWith
  rw [if_neg (not_lt.mpr hfirst), hparent, Option.bind_eq_bind, Option.bind_some]
  dsimp only
  rw [sizeofDirEntry, hwrite]
  rfl

end Neos.Fat
