import Neos.Fat.Entries

/-!
# Open files

A handle that agrees with the disk, and what a successful `fat_fwrite` does to
the file behind it: the size, the chain, the directory entry, and the bytes that
`fat_fread` returns afterwards.
-/

namespace Neos.Fat

open ByteRange

variable {g : Bpb} {s s' : State} {l dir new : List ℕ} {data : ℕ → UInt8} {n p : ℕ}
  {file file' : FatFile}

/-! ## Sizes in clusters -/

/-- The clusters needed for some bytes. -/
def clustersFor (g : Bpb) (size : ℕ) : ℕ := (size + g.clusterSize - 1) / g.clusterSize

theorem clustersFor_le_iff (hpos : 0 < g.clusterSize) {size k : ℕ} :
    clustersFor g size ≤ k ↔ size ≤ k * g.clusterSize := by
  rw [clustersFor, ← Nat.lt_succ_iff, Nat.div_lt_iff_lt_mul hpos, Nat.succ_mul]
  omega

theorem clustersFor_max (hpos : 0 < g.clusterSize) (a b : ℕ) :
    clustersFor g (max a b) = max (clustersFor g a) (clustersFor g b) := by
  apply eq_of_forall_ge_iff
  intro k
  rw [max_le_iff, clustersFor_le_iff hpos, clustersFor_le_iff hpos, clustersFor_le_iff hpos,
    max_le_iff]

theorem clustersFor_eq (hpos : 0 < g.clusterSize) {size k : ℕ} (henough : size ≤ k * g.clusterSize)
    (hneeded : (k - 1) * g.clusterSize < size) : clustersFor g size = k := by
  have hle := (clustersFor_le_iff hpos).mpr henough
  have hge : ¬ clustersFor g size ≤ k - 1 := by
    rw [clustersFor_le_iff hpos]
    omega
  omega

/-- A chain of the length that the size asks for. -/
theorem sizeFits_of_length (hpos : 0 < g.clusterSize) {size k : ℕ}
    (h : k = max 1 (clustersFor g size)) : SizeFits g size k where
  needed := by
    by_cases hone : k = 1
    · rw [hone]
      omega
    · have hge : ¬ clustersFor g size ≤ k - 1 := by omega
      rw [clustersFor_le_iff hpos] at hge
      omega
  enough := by
    rw [← clustersFor_le_iff hpos]
    omega

/-! ## The chains of other files -/

/-- No cluster of a chain is marked free. -/
theorem FileChain.entry_ne_zero (hg : Geometry g) {disk : ℕ → UInt8} {first : ℕ}
    (h : FileChain g disk first l) : ∀ x ∈ l, fatEntry g disk x ≠ 0 := by
  obtain ⟨hchain, hvalid⟩ := h
  induction hchain with
  | last hstop =>
      intro x hx
      rw [List.mem_singleton.mp hx]
      exact hstop.not_special.1
  | link hgo hrest ih =>
      intro x hx
      have hvalid' := fun y hy => hvalid y (List.mem_cons_of_mem _ hy)
      rcases List.mem_cons.mp hx with rfl | hx
      · exact ((hvalid' _ hrest.head_mem).not_special hg).1
      · exact ih hvalid' x hx

theorem FileChain.congr {disk disk' : ℕ → UInt8} {first : ℕ} (h : FileChain g disk first l)
    (hentry : ∀ x ∈ l, fatEntry g disk' x = fatEntry g disk x) : FileChain g disk' first l :=
  ⟨h.chain.congr hentry, h.valid⟩

namespace Written

variable {a c : ℕ} {other : List ℕ} {first : ℕ}

/-- The clusters of another chain are not taken. -/
theorem not_mem_new (hg : Geometry g) (h : Written g data p n a s s' c l new)
    (hother : FileChain g s.disk first other) : ∀ x ∈ other, x ∉ new :=
  fun x hx hnew => hother.entry_ne_zero hg x hx (h.fresh x hnew)

/-- Another chain stays as it is. -/
theorem chain_other (hg : Geometry g) (h : Written g data p n a s s' c l new)
    (hother : FileChain g s.disk first other) (hdisj : ∀ x ∈ other, x ∉ l) :
    FileChain g s'.disk first other := by
  apply hother.congr
  intro x hx
  apply h.entry x (hother.valid x hx).lt_limit (h.not_mem_new hg hother x hx)
  intro hlast
  exact hdisj x hx (List.mem_of_getLast? hlast)

/-- The bytes of another chain stay as they are. -/
theorem bytes_other (hg : Geometry g) (h : Written g data p n a s s' c l new)
    (hother : FileChain g s.disk first other) (hdisj : ∀ x ∈ other, x ∉ l) {j : ℕ}
    (hj : j < other.length * g.clusterSize) :
    chainByte g s'.disk other j = chainByte g s.disk other j := by
  apply chainByte_congr hg.clusterSize_pos _ hj
  intro x hx k hk
  exact h.other x k (hother.valid x hx) (hdisj x hx) (h.not_mem_new hg hother x hx) hk

end Written

/-! ## Handles -/

/-- The handle agrees with the disk: `l` is the chain of the file, `dir` the one of
the directory that holds its entry. -/
structure OpenFile (g : Bpb) (s : State) (file : FatFile) (l dir : List ℕ) : Prop where
  chain : FileChain g s.disk file.fatDir.dirFstClusLO l
  clusters : l.length = max 1 (clustersFor g file.fatDir.dirFileSize)
  parent : FileChain g s.disk file.firstParentCluster dir
  parent_lt : file.firstParentCluster < 2 ^ 16
  inside : file.entryPosition + 32 ≤ dir.length * g.clusterSize
  apart : ∀ x ∈ dir, x ∉ l
  entry : entryAt g s.disk dir file.entryPosition = file.fatDir

theorem OpenFile.sizeFits (hg : Geometry g) (h : OpenFile g s file l dir) :
    SizeFits g file.fatDir.dirFileSize l.length :=
  sizeFits_of_length hg.clusterSize_pos h.clusters

theorem entryAt_congr {disk disk' : ℕ → UInt8} {position : ℕ}
    (hroom : position + 32 ≤ dir.length * g.clusterSize)
    (h : ∀ j, j < dir.length * g.clusterSize → chainByte g disk dir j = chainByte g disk' dir j) :
    entryAt g disk dir position = entryAt g disk' dir position := by
  apply DirEntry.ext_buffer
  intro i hi
  rw [entryAt, entryAt, DirEntry.buffer_ofBuffer _ hi, DirEntry.buffer_ofBuffer _ hi]
  exact h _ (by omega)

/-- A directory into which an entry was written has it. -/
theorem Written.entryAt_self {e : DirEntry} {position first : ℕ}
    (h : Written g e.buffer position 32 0 s s' first dir [])
    (hroom : position + 32 ≤ dir.length * g.clusterSize) : entryAt g s'.disk dir position = e := by
  apply DirEntry.ext_buffer
  intro i hi
  have hbyte := h.bytes (position + i) (by rw [List.append_nil]; omega)
  rw [List.append_nil, if_pos (by omega)] at hbyte
  rw [entryAt, DirEntry.buffer_ofBuffer _ hi, hbyte]
  congr 1
  omega

/-- The number of clusters after the write. -/
theorem Written.clusters (hpos : 0 < g.clusterSize) {size first : ℕ}
    (h : Written g data p n 0 s s' first l new) (hl : l.length = max 1 (clustersFor g size)) :
    (l ++ new).length = max 1 (clustersFor g (max size (p + n))) := by
  have henough := h.enough
  rw [Nat.zero_add] at henough
  have hsize := (sizeFits_of_length hpos hl).enough
  have hgrow : l.length * g.clusterSize ≤ (l ++ new).length * g.clusterSize := by
    apply Nat.mul_le_mul_right
    rw [List.length_append]
    omega
  by_cases hnil : new = []
  · rw [hnil, List.append_nil] at henough ⊢
    have hle : clustersFor g (max size (p + n)) ≤ l.length := by
      rw [clustersFor_le_iff hpos]
      omega
    have hge : clustersFor g size ≤ clustersFor g (max size (p + n)) := by
      rw [clustersFor_le_iff hpos]
      have hself := (clustersFor_le_iff hpos).mp (le_refl (clustersFor g (max size (p + n))))
      omega
    omega
  · have hneeded := h.needed hnil
    rw [Nat.zero_add] at hneeded
    have heq : clustersFor g (max size (p + n)) = (l ++ new).length := by
      apply clustersFor_eq hpos <;> omega
    have hlen := h.chain.chain.length_pos
    omega

/-! ## A successful `fat_fwrite` -/

/-- The bytes of a file after a write: the data, then what was there, then zeros. -/
structure Stored (g : Bpb) (data : ℕ → UInt8) (p n : ℕ) (s s' : State) (l l' : List ℕ) : Prop where
  bytes : ∀ j, j < l'.length * g.clusterSize →
    chainByte g s'.disk l' j =
      if p ≤ j ∧ j < p + n then data (j - p)
      else if j < l.length * g.clusterSize then chainByte g s.disk l j else 0
  enough : p + n ≤ l'.length * g.clusterSize

theorem Written.stored {first : ℕ} (h : Written g data p n 0 s s' first l new) :
    Stored g data p n s s' l (l ++ new) where
  bytes j hj := by
    have hbyte := h.bytes j hj
    rwa [Nat.zero_add] at hbyte
  enough := by
    have henough := h.enough
    rwa [Nat.zero_add] at henough

/-- The body of `fat_fwrite` writes the data, and it updates the entry when the file
has grown; the clusters that the loop took are data clusters. -/
theorem fwriteWith_of_loop (hg : Geometry g) (hfat : 3 * g.secPerClus ≤ g.fatSz32)
    {update : FatFile → State → Option State}
    (h : FileChain g s.disk file.fatDir.dirFstClusLO l)
    (hpn : file.cursor + n + 2 ^ 17 ≤ 2 ^ 32)
    (hw : fwriteWith g update data n file s = some (true, file', s'))
    (hvalid : ∀ written s₁,
      fwriteLoop g data n file loopBound file.fatDir.dirFstClusLO 0 0 s = some (some written, s₁) →
        ∀ t ∈ s₁.taken, ValidCluster g t) :
    ∃ s₁ new, Written g data file.cursor n 0 s s₁ file.fatDir.dirFstClusLO l new ∧
      ((file.cursor + n ≤ file.fatDir.dirFileSize ∧
          file' = { file with cursor := file.cursor + n } ∧ s' = s₁) ∨
        (file.fatDir.dirFileSize < file.cursor + n ∧
          file' = { file with
            cursor := file.cursor + n
            fatDir := file.fatDir.setFileSize (file.cursor + n) } ∧
          update file' s₁ = some s')) := by
  obtain ⟨⟨written, s₁⟩, hloop, hrest⟩ := Option.bind_eq_some_iff.mp hw
  cases written with
  | none => exact absurd (Prod.mk.inj (Option.some_inj.mp hrest)).1 Bool.false_ne_true
  | some total =>
      rcases fwriteLoop_file hg hfat (by omega) h (.inr ⟨hpn, hvalid total s₁ hloop⟩) hloop with
        ⟨hnone, -⟩ | ⟨hsome, new, hwritten⟩
      · exact absurd hnone (Option.some_ne_none _)
      · obtain rfl : total = n := Option.some_inj.mp hsome
        have hcursor : u32 (file.cursor + total) = file.cursor + total := u32_of_lt (by omega)
        refine ⟨s₁, new, hwritten, ?_⟩
        dsimp only at hrest
        rw [hcursor] at hrest
        by_cases hgrow : file.fatDir.dirFileSize < file.cursor + total
        · rw [if_pos hgrow] at hrest
          obtain ⟨s₂, hup, hrest⟩ := Option.bind_eq_some_iff.mp hrest
          obtain ⟨-, hrest⟩ := Prod.mk.inj (Option.some_inj.mp hrest)
          obtain ⟨hfile, rfl⟩ := Prod.mk.inj hrest
          rw [hfile] at hup
          exact .inr ⟨hgrow, hfile.symm, hup⟩
        · rw [if_neg hgrow] at hrest
          obtain ⟨-, hrest⟩ := Prod.mk.inj (Option.some_inj.mp hrest)
          obtain ⟨hfile, rfl⟩ := Prod.mk.inj hrest
          exact .inl ⟨not_lt.mp hgrow, hfile.symm, rfl⟩

/-- What the loop of a successful write took is still recorded at the end. -/
theorem fwriteWith_keeps {update : FatFile → State → Option State}
    (hupdate : ∀ file s s', update file s = some s' → ∀ t ∈ s.taken, t ∈ s'.taken)
    (hw : fwriteWith g update data n file s = some (true, file', s')) {written : ℕ} {s₁ : State}
    (hloop : fwriteLoop g data n file loopBound file.fatDir.dirFstClusLO 0 0 s =
      some (some written, s₁)) : ∀ t ∈ s₁.taken, t ∈ s'.taken := by
  intro t ht
  unfold fwriteWith at hw
  rw [hloop, Option.bind_eq_bind, Option.bind_some] at hw
  dsimp only at hw
  split at hw
  · obtain ⟨s₂, hup, hw⟩ := Option.bind_eq_some_iff.mp hw
    obtain ⟨-, -, rfl⟩ := Option.some_inj.mp hw
    exact hupdate _ _ _ hup t ht
  · obtain ⟨-, -, rfl⟩ := Option.some_inj.mp hw
    exact ht

theorem fatFwrite_keeps (hw : fatFwrite g data n file s = some (true, file', s')) {written : ℕ}
    {s₁ : State} (hloop : fwriteLoop g data n file loopBound file.fatDir.dirFstClusLO 0 0 s =
      some (some written, s₁)) : ∀ t ∈ s₁.taken, t ∈ s'.taken := by
  rw [fatFwrite, fwriteNested] at hw
  exact fwriteWith_keeps (fun _ _ _ => updateEntryWith_taken (fwriteNested_taken 1)) hw hloop

/-- What a successful write through a handle does to the chain `l` of its file and
to its entry, whatever the size is that the handle knows. -/
structure Rewritten (g : Bpb) (data : ℕ → UInt8) (n : ℕ) (s s' : State) (file file' : FatFile)
    (l new dir : List ℕ) : Prop where
  chain : FileChain g s'.disk file.fatDir.dirFstClusLO (l ++ new)
  parent : FileChain g s'.disk file.firstParentCluster dir
  apart : ∀ x ∈ dir, x ∉ l ++ new
  handle : file' = { file with
    cursor := file.cursor + n
    fatDir := if file.fatDir.dirFileSize < file.cursor + n then
      file.fatDir.setFileSize (file.cursor + n) else file.fatDir }
  entry : entryAt g s'.disk dir file.entryPosition =
    if file.fatDir.dirFileSize < file.cursor + n then file'.fatDir
    else entryAt g s.disk dir file.entryPosition
  stored : Stored g data file.cursor n s s' l (l ++ new)
  clusters : ∀ size, l.length = max 1 (clustersFor g size) →
    (l ++ new).length = max 1 (clustersFor g (max size (file.cursor + n)))
  taken : s'.taken = new.reverse ++ s.taken

theorem fatFwrite_rewritten (hg : Geometry g) (hfat : 3 * g.secPerClus ≤ g.fatSz32)
    (h : FileChain g s.disk file.fatDir.dirFstClusLO l)
    (hparent : FileChain g s.disk file.firstParentCluster dir)
    (hparent_lt : file.firstParentCluster < 2 ^ 16)
    (hinside : file.entryPosition + 32 ≤ dir.length * g.clusterSize)
    (hapart : ∀ x ∈ dir, x ∉ l) (hpn : file.cursor + n + 2 ^ 17 ≤ 2 ^ 32)
    (hw : fatFwrite g data n file s = some (true, file', s'))
    (hvalid : ∀ written s₁,
      fwriteLoop g data n file loopBound file.fatDir.dirFstClusLO 0 0 s = some (some written, s₁) →
        ∀ t ∈ s₁.taken, ValidCluster g t) :
    ∃ new, Rewritten g data n s s' file file' l new dir := by
  have hpos := hg.clusterSize_pos
  rw [fatFwrite, fwriteNested] at hw
  obtain ⟨s₁, new, hwritten, hcases⟩ := fwriteWith_of_loop hg hfat h hpn hw hvalid
  have hclusters := fun size (hl : l.length = max 1 (clustersFor g size)) =>
    hwritten.clusters hpos hl
  have hdirLeft : ∀ x ∈ dir, x ∉ l ++ new := by
    intro x hx hmem
    rcases List.mem_append.mp hmem with hl | hnew
    · exact hapart x hx hl
    · exact hwritten.not_mem_new hg hparent x hx hnew
  have hparent' := hwritten.chain_other hg hparent hapart
  have hdirBytes := fun j hj => hwritten.bytes_other hg hparent hapart (j := j) hj
  rcases hcases with ⟨hle, rfl, rfl⟩ | ⟨hlt, rfl, hup⟩
  · have hnot : ¬ file.fatDir.dirFileSize < file.cursor + n := not_lt.mpr hle
    refine ⟨new, hwritten.chain, hparent', hdirLeft, by rw [if_neg hnot], ?_, hwritten.stored,
      hclusters, hwritten.taken⟩
    rw [if_neg hnot, entryAt_congr hinside hdirBytes]
  · have hfirst := (hparent.valid _ hparent.chain.head_mem).ge_two
    obtain ⟨s₂, hup', hentry⟩ := updateEntryWith_spec hg hfat
      (updateEntryWith g (fwriteNested g 0))
      { file with
        cursor := file.cursor + n
        fatDir := file.fatDir.setFileSize (file.cursor + n) }
      hfirst hparent_lt hparent' hinside
    obtain rfl : s₂ = s' := Option.some_inj.mp (hup'.symm.trans hup)
    have hfileLeft : ∀ x ∈ l ++ new, x ∉ dir := fun x hx hmem => hdirLeft x hmem hx
    have hfileBytes := fun j hj => hentry.bytes_other hg hwritten.chain hfileLeft (j := j) hj
    have hdirChain := hentry.chain
    rw [List.append_nil] at hdirChain
    refine ⟨new, hentry.chain_other hg hwritten.chain hfileLeft, hdirChain, hdirLeft,
      by rw [if_pos hlt], ?_, ⟨?_, hwritten.stored.enough⟩, hclusters,
      hentry.taken.trans hwritten.taken⟩
    · rw [if_pos hlt]
      exact hentry.entryAt_self hinside
    · intro j hj
      rw [hfileBytes j hj]
      exact hwritten.stored.bytes j hj

/-- A successful `fat_fwrite` leaves a handle that agrees with the disk again, on a
file that has grown as far as the data reaches. -/
theorem fatFwrite_spec (hg : Geometry g) (hfat : 3 * g.secPerClus ≤ g.fatSz32)
    (h : OpenFile g s file l dir) (hpn : file.cursor + n + 2 ^ 17 ≤ 2 ^ 32)
    (hw : fatFwrite g data n file s = some (true, file', s'))
    (hvalid : ∀ written s₁,
      fwriteLoop g data n file loopBound file.fatDir.dirFstClusLO 0 0 s = some (some written, s₁) →
        ∀ t ∈ s₁.taken, ValidCluster g t) :
    ∃ new, OpenFile g s' file' (l ++ new) dir ∧
      file' = { file with cursor := file.cursor + n, fatDir := file'.fatDir } ∧
      file'.fatDir.dirFileSize = max file.fatDir.dirFileSize (file.cursor + n) ∧
      Stored g data file.cursor n s s' l (l ++ new) ∧ s'.taken = new.reverse ++ s.taken := by
  obtain ⟨new, hnew⟩ := fatFwrite_rewritten hg hfat h.chain h.parent h.parent_lt h.inside h.apart
    hpn hw hvalid
  have hclusters := hnew.clusters _ h.clusters
  obtain ⟨hchain, hparent, hapart, hhandle, hentry, hstored, -, htaken⟩ := hnew
  refine ⟨new, ?_, by rw [hhandle], ?_, hstored, htaken⟩
  · subst hhandle
    by_cases hlt : file.fatDir.dirFileSize < file.cursor + n
    · have hsize : (file.fatDir.setFileSize (file.cursor + n)).dirFileSize = file.cursor + n := by
        rw [DirEntry.dirFileSize_setFileSize]
        exact Nat.mod_eq_of_lt (by omega)
      rw [max_eq_right hlt.le] at hclusters
      rw [if_pos hlt] at hentry
      dsimp only at hentry
      rw [if_pos hlt] at hentry ⊢
      refine ⟨?_, ?_, hparent, h.parent_lt, h.inside, hapart, hentry⟩
      · dsimp only
        rw [DirEntry.dirFstClusLO_setFileSize]
        exact hchain
      · dsimp only
        rw [hsize]
        exact hclusters
    · rw [max_eq_left (not_lt.mp hlt)] at hclusters
      rw [if_neg hlt] at hentry ⊢
      rw [h.entry] at hentry
      exact ⟨hchain, hclusters, hparent, h.parent_lt, h.inside, hapart, hentry⟩
  · subst hhandle
    by_cases hlt : file.fatDir.dirFileSize < file.cursor + n
    · rw [max_eq_right hlt.le, if_pos hlt, DirEntry.dirFileSize_setFileSize]
      exact Nat.mod_eq_of_lt (by omega)
    · rw [max_eq_left (not_lt.mp hlt), if_neg hlt]

/-! ## Reading back -/

/-- The bytes that `fat_fread` stores in a buffer after seeking to an offset. -/
def readFile (g : Bpb) (out : ℕ → UInt8) (file : FatFile) (s : State) (offset n : ℕ) :
    Option (List UInt8) :=
  (fatFread g out n (fatFseekSet file offset) s).map fun r => readBytes r.1 0 n

/-- Inside the file these are the bytes of its chain. -/
theorem readFile_spec (hg : Geometry g) (h : OpenFile g s file l dir) {offset : ℕ}
    (hend : offset + n ≤ file.fatDir.dirFileSize) (out : ℕ → UInt8) :
    readFile g out file s offset n = some (readBytes (chainByte g s.disk l) offset n) := by
  have hbytes := h.chain.bytes_lt hg
  have hsize := h.sizeFits hg
  have hroom := hsize.enough
  have hcursor : (fatFseekSet file offset).cursor = offset := u32_of_lt (by omega)
  obtain ⟨s₁, hread, -⟩ := fatFread_spec (n := n) hg (fatFseekSet file offset) (by omega)
    h.chain hsize (by rw [hcursor]; show offset ≤ file.fatDir.dirFileSize; omega) out
  have hall : min n (file.fatDir.dirFileSize - offset) = n := by omega
  have hsame : (fatFseekSet file offset).fatDir = file.fatDir := rfl
  rw [readFile, hread, Option.map_some, hcursor, hsame, hall]
  congr 1
  apply readBytes_congr
  intro i hi
  dsimp only
  rw [Nat.zero_add, if_pos hi]

/-- After a successful `fat_fwrite` the data is read back, the other bytes of the
file are read as before, and the size and the chain are those of the longer of
the old file and the data. -/
theorem written_reads_back (hg : Geometry g) (hfat : 3 * g.secPerClus ≤ g.fatSz32)
    (h : OpenFile g s file l dir) (hpn : file.cursor + n < 2 ^ 31)
    (hw : fatFwrite g data n file s = some (true, file', s'))
    (hvalid : ∀ t ∈ s'.taken, ValidCluster g t) :
    (∀ out, readFile g out file' s' file.cursor n = some (readBytes data 0 n)) ∧
      (∀ out j, j < file.fatDir.dirFileSize → ¬ (file.cursor ≤ j ∧ j < file.cursor + n) →
        ∃ b, readFile g out file s j 1 = some [b] ∧ readFile g out file' s' j 1 = some [b]) ∧
      file'.fatDir.dirFileSize = max file.fatDir.dirFileSize (file.cursor + n) ∧
      entryAt g s'.disk dir file.entryPosition = file'.fatDir ∧
      FileChain g s'.disk file.firstParentCluster dir ∧
      ∃ l', FileChain g s'.disk file'.fatDir.dirFstClusLO l' ∧
        l'.length = max 1 (max (clustersFor g file.fatDir.dirFileSize)
          (clustersFor g (file.cursor + n))) := by
  obtain ⟨new, hopen, hhandle, hsize, hstored, -⟩ := fatFwrite_spec hg hfat h (by omega) hw
    fun written s₁ hloop t ht => hvalid t (fatFwrite_keeps hw hloop t ht)
  have hposition : file'.entryPosition = file.entryPosition := by rw [hhandle]
  have hparent : file'.firstParentCluster = file.firstParentCluster := by rw [hhandle]
  have hroom := (h.sizeFits hg).enough
  have hroom' := (hopen.sizeFits hg).enough
  refine ⟨?_, ?_, hsize, ?_, ?_, l ++ new, hopen.chain, ?_⟩
  · intro out
    rw [readFile_spec hg hopen (by omega) out]
    congr 1
    apply readBytes_congr
    intro i hi
    rw [hstored.bytes _ (by omega), if_pos (by omega)]
    congr 1
    omega
  · intro out j hj hout
    refine ⟨chainByte g s.disk l j, ?_, ?_⟩
    · exact readFile_spec hg h (by omega) out
    · rw [readFile_spec hg hopen (by omega) out]
      have hbyte := hstored.bytes j (by omega)
      rw [if_neg hout, if_pos (by omega)] at hbyte
      rw [← hbyte]
      rfl
  · rw [← hposition]
    exact hopen.entry
  · rw [← hparent]
    exact hopen.parent
  · rw [hopen.clusters, hsize, clustersFor_max hg.clusterSize_pos]

/-! ## A small volume -/

/-- Sixteen sectors: one reserved, two FAT copies of three, nine data clusters. -/
def smallVolume : Bpb :=
  { bytsPerSec := 512
    secPerClus := 1
    rsvdSecCnt := 1
    numFats := 2
    totSec16 := 0
    totSec32 := 16
    fatSz32 := 3 }

theorem smallVolume_geometry : Geometry smallVolume where
  bytsPerSec := rfl
  numFats := rfl
  secPerClus_pos := by decide
  secPerClus_lt := by decide
  rsvdSecCnt_pos := by decide
  rsvdSecCnt_lt := by decide
  fits := by decide
  diskSize_le := by decide
  fatHolds := by decide

/-- Store the FAT entry of a cluster in both copies. -/
def storeFat (disk : ℕ → UInt8) (c v : ℕ) : ℕ → UInt8 :=
  (fatWriteFatEntry smallVolume ⟨disk, fun _ => 0, 0xFFFFFFFF, [], []⟩ c v).disk

/-- A file of 100 bytes in cluster 3, with its entry at the start of the root
directory. -/
def smallEntry : DirEntry := (DirEntry.zero.setFstClusLO 3).setFileSize 100

/-- The handle on this file, with the cursor inside it. -/
def smallFile : FatFile :=
  { fatFileDefault with fatDir := smallEntry, firstParentCluster := 2, cursor := 50 }

/-- The root directory in cluster 2 and the file in cluster 3. -/
def smallState : State :=
  { disk := writeBytes (storeFat (storeFat (fun _ => 0) 2 0x0FFFFFFF) 3 0x0FFFFFFF)
      (smallVolume.clusterOffset 2) smallEntry.bytes
    fatCache := fun _ => 0
    fatCacheSector := 0xFFFFFFFF
    taken := [] }

theorem smallState_cluster {c : ℕ} (hlo : 2 ≤ c) (hhi : c < 11)
    (hmark : fatEntry smallVolume smallState.disk c = 0x0FFFFFFF) :
    FileChain smallVolume smallState.disk c [c] where
  chain := by
    apply LinkedChain.last
    rw [hmark]
    exact ⟨by decide, by decide⟩
  valid := by
    intro x hx
    rw [List.mem_singleton.mp hx]
    exact ⟨hlo, hhi⟩

theorem smallFile_open : OpenFile smallVolume smallState smallFile [3] [2] where
  chain := smallState_cluster (by decide) (by decide) (by decide +kernel)
  clusters := by decide +kernel
  parent := smallState_cluster (by decide) (by decide) (by decide +kernel)
  parent_lt := by decide
  inside := by decide +kernel
  apart := by decide
  entry := DirEntry.ext_buffer (by decide +kernel)

/-- Six hundred bytes written at offset 50 take another cluster. -/
theorem written_reads_back_smallFile : ∃ file' s',
    fatFwrite smallVolume (fun i => UInt8.ofNat i) 600 smallFile smallState =
        some (true, file', s') ∧ s'.taken = [4] ∧
      (∀ out, readFile smallVolume out file' s' 50 600 =
        some (readBytes (fun i => UInt8.ofNat i) 0 600)) ∧
      file'.fatDir.dirFileSize = 650 := by
  have hrun : (fatFwrite smallVolume (fun i => UInt8.ofNat i) 600 smallFile smallState).map
      (fun r => (r.1, r.2.2.taken)) = some (true, [4]) := by decide +kernel
  obtain ⟨⟨b, file', s'⟩, hw, heq⟩ := Option.map_eq_some_iff.mp hrun
  obtain ⟨rfl, htaken⟩ := Prod.mk.inj heq
  have hvalid : ∀ t ∈ s'.taken, ValidCluster smallVolume t := by
    intro t ht
    dsimp only at htaken
    rw [htaken, List.mem_singleton] at ht
    rw [ht]
    exact ⟨by decide, by decide⟩
  obtain ⟨hread, -, hsize, -⟩ := written_reads_back smallVolume_geometry (by decide)
    smallFile_open (by decide) hw hvalid
  exact ⟨file', s', hw, htaken, hread, hsize.trans (by decide +kernel)⟩

end Neos.Fat
