import Neos.Fat.Ownership
import Neos.Fat.Removal

/-!
# First clusters of 65536 and more

A directory entry holds the number of the first cluster in two halves, and
`fat_create` stores both.  Every walk begins at the lower half alone, in the file
and in the directory that holds its entry.
-/

namespace Neos.Fat

open ByteRange

variable {g : Bpb} {s s' : State} {c p n : ℕ} {l dir : List ℕ} {data : ℕ → UInt8}
  {file newFile rootDir : FatFile} {uninitialized : DirEntry} {path : List UInt8}

/-! ## Recording a first cluster -/

/-- Store the number of the first cluster in its two fields, as `fat_create` does. -/
def DirEntry.setFirstCluster (e : DirEntry) (c : ℕ) : DirEntry :=
  (e.setFstClusLO c).setFstClusHI (c >>> 16)

theorem DirEntry.firstCluster_setFirstCluster (e : DirEntry) (hc : c < 2 ^ 32) :
    (e.setFirstCluster c).firstCluster = c := by
  have hlow : (e.setFirstCluster c).dirFstClusLO = c % 2 ^ 16 := by
    unfold setFirstCluster setFstClusHI dirFstClusLO
    rw [field_setField_of_disjoint _ _ (by decide) (by decide)]
    exact e.dirFstClusLO_setFstClusLO c
  have hhigh : (e.setFirstCluster c).dirFstClusHI = (c >>> 16) % 2 ^ 16 :=
    field_setField_self _ _ (by decide)
  rw [firstCluster, hlow, hhigh, Nat.shiftRight_eq_div_pow]
  omega

theorem DirEntry.dirFstClusLO_eq (e : DirEntry) : e.dirFstClusLO = e.firstCluster % 2 ^ 16 := by
  have hlt := e.dirFstClusLO_lt
  unfold firstCluster
  omega

theorem DirEntry.dirFstClusLO_of_lt {e : DirEntry} (h : e.firstCluster < 2 ^ 16) :
    e.dirFstClusLO = e.firstCluster := by
  rw [e.dirFstClusLO_eq]
  exact Nat.mod_eq_of_lt h

theorem recreateLoop_taken {lfnEntries : ℕ} {checksum : UInt8} :
    ∀ {rounds lfnEntry position : ℕ} {parentDir : FatFile} {s s' : State},
      recreateLoop g file lfnEntries checksum rounds lfnEntry position parentDir s = some s' →
        ∀ t ∈ s.taken, t ∈ s'.taken
  | rounds + 1, lfnEntry, position, parentDir, s, s', h, t, ht => by
      obtain ⟨⟨done, parentDir', s₁⟩, hwrite, h⟩ := Option.bind_eq_some_iff.mp h
      have hmem : t ∈ s₁.taken := fwriteNested_taken 2 _ _ _ _ _ hwrite t ht
      dsimp only at h
      split at h
      · rwa [← Option.some_inj.mp h]
      · exact recreateLoop_taken h t hmem

theorem recreateLfn_taken (h : recreateLfn g file s = some s') : ∀ t ∈ s.taken, t ∈ s'.taken := by
  intro t ht
  obtain ⟨⟨parentDir, s₁⟩, hparent, h⟩ := Option.bind_eq_some_iff.mp h
  obtain ⟨⟨count, s₂⟩, hcount, hparent⟩ := Option.bind_eq_some_iff.mp hparent
  have hmem : t ∈ s₁.taken := by
    rw [← (Prod.mk.inj (Option.some_inj.mp hparent)).2, clusterCountLoop_taken hcount]
    exact ht
  dsimp only at h
  split at h
  · obtain ⟨length, -, h⟩ := Option.bind_eq_some_iff.mp h
    exact recreateLoop_taken h t hmem
  · rwa [← Option.some_inj.mp h]

/-- The entry of a new file records the cluster that the search returned. -/
theorem placeFile_taken {nameLength : ℕ} {dir : FatFile} (hg : Geometry g)
    (h : placeFile g uninitialized nameLength newFile dir s = some (true, file, s')) :
    file.fatDir.firstCluster ∈ s'.taken := by
  obtain ⟨⟨count, s₁⟩, -, h⟩ := Option.bind_eq_some_iff.mp h
  obtain ⟨⟨position, dir', s₂⟩, -, h⟩ := Option.bind_eq_some_iff.mp h
  cases position with
  | none => cases h
  | some dirOffset =>
      obtain ⟨⟨free, s₃⟩, hfind, h⟩ := Option.bind_eq_some_iff.mp h
      cases free with
      | none => cases h
      | some freeCluster =>
          obtain ⟨s₄, hupdate, h⟩ := Option.bind_eq_some_iff.mp h
          obtain ⟨s₅, hlfn, h⟩ := Option.bind_eq_some_iff.mp h
          obtain ⟨-, hnone, -⟩ | ⟨-, f, hf, htaken, -, hlt, -⟩ :=
            and_or_left.mp (findFreeCluster_spec hg (.inl rfl) (by decide) hfind)
          · cases hnone
          obtain rfl : freeCluster = f := Option.some_inj.mp hf
          cases h
          have hfirst : ((newFile.fatDir.setFstClusLO freeCluster).setFstClusHI
              (freeCluster >>> 16)).firstCluster = freeCluster :=
            newFile.fatDir.firstCluster_setFirstCluster (hlt.trans (by decide))
          dsimp only
          rw [hfirst]
          apply recreateLfn_taken hlfn
          apply updateEntryWith_taken (fwriteNested_taken 2) hupdate
          rw [fatClearCluster_taken, fatWriteFatEntry_taken, htaken]
          exact List.mem_cons_self

theorem fatCreate_taken {attributes : UInt8} (hg : Geometry g)
    (h : fatCreate g uninitialized newFile rootDir path attributes s = some (true, file, s')) :
    file.fatDir.firstCluster ∈ s'.taken := by
  obtain ⟨⟨opened, parentDir, s₁⟩, -, h⟩ := Option.bind_eq_some_iff.mp h
  dsimp only at h
  split at h
  · cases h
  split at h
  · cases h
  obtain ⟨fresh, -, h⟩ := Option.bind_eq_some_iff.mp h
  split at h
  · obtain ⟨⟨fatDir, parentDir', s₂⟩, -, h⟩ := Option.bind_eq_some_iff.mp h
    exact placeFile_taken hg h
  · exact placeFile_taken hg h

theorem fatCreateFile_taken {attributes : UInt8} (hg : Geometry g)
    (h : fatCreateFile g uninitialized rootDir path attributes s = some (true, file, s')) :
    file.fatDir.firstCluster ∈ s'.taken := by
  obtain ⟨⟨r, s₁⟩, -, h⟩ := Option.bind_eq_some_iff.mp h
  dsimp only at h
  split at h
  · cases h
  · exact fatCreate_taken hg h

/-! ## Following the whole number -/

/-- On the disk the file of the handle has the chain `l`, from the first cluster that
its entry records, and the directory that holds the entry has the chain `dir`. -/
structure Standing (g : Bpb) (s : State) (file : FatFile) (l dir : List ℕ) : Prop where
  chain : FileChain g s.disk file.fatDir.firstCluster l
  clusters : l.length = max 1 (clustersFor g file.fatDir.dirFileSize)
  parent : FileChain g s.disk file.firstParentCluster dir
  inside : file.entryPosition + 32 ≤ dir.length * g.clusterSize
  apart : ∀ x ∈ dir, x ∉ l

/-- The operations on the file use the chain `l`, and its directory for its entry. -/
structure UsesOwn (g : Bpb) (s : State) (file : FatFile) (l dir : List ℕ) : Prop where
  reads : ∀ out n, n < 2 ^ 32 → file.cursor ≤ file.fatDir.dirFileSize → ∃ file' s',
    fatFread g out n file s =
      some (fun x => if x < min n (file.fatDir.dirFileSize - file.cursor) then
        chainByte g s.disk l (file.cursor + x) else out x, file', s') ∧ s'.disk = s.disk
  writes : ∀ data n done file' s', n < 2 ^ 32 →
    fatFwrite g data n file s = some (done, file', s') → (∀ t ∈ s'.taken, ValidCluster g t) →
      KeepsOthers g s s' (l ++ dir) ∧
        (done = true → file.cursor + n < 2 ^ 31 → ∃ new,
          FileChain g s'.disk file.fatDir.firstCluster (l ++ new) ∧
            Stored g data file.cursor n s s' l (l ++ new))
  updates : ∃ s', fatUpdateEntry g file s = some s' ∧
    entryAt g s'.disk dir file.entryPosition = file.fatDir ∧ KeepsOthers g s s' dir
  truncates : ∃ file' s', truncateFile g file s = some (file', s') ∧
    FileChain g s'.disk file.fatDir.firstCluster [file.fatDir.firstCluster] ∧
    (∀ x ∈ l, x ≠ file.fatDir.firstCluster → fatEntry g s'.disk x = 0) ∧
    entryAt g s'.disk dir file.entryPosition = file.fatDir.setFileSize 0 ∧
    KeepsOthers g s s' (l ++ dir)
  removes : ∃ s', fatRemoveFatChain g file s = some s' ∧ Freed g s s' l

/-- Whatever happened to the volume, each operation through a handle on the file with
the first cluster `c`, in the directory with the first cluster `p`, uses the clusters
of this file. -/
def FollowsRecorded (g : Bpb) (c p : ℕ) : Prop :=
  ∀ s file l dir, file.fatDir.firstCluster = c → file.firstParentCluster = p →
    Standing g s file l dir → UsesOwn g s file l dir

theorem followsRecorded_of_lt (hg : Geometry g) (hfat : 3 * g.secPerClus ≤ g.fatSz32)
    (hc : c < 2 ^ 16) (hp : p < 2 ^ 16) : FollowsRecorded g c p := by
  rintro s file l dir rfl rfl ⟨hchain, hclusters, hparent, hinside, hapart⟩
  have hlow := DirEntry.dirFstClusLO_of_lt hc
  have hsize := sizeFits_of_length hg.clusterSize_pos hclusters
  have h : FileChain g s.disk file.fatDir.dirFstClusLO l := by rwa [hlow]
  constructor
  · intro out n hn hcursor
    obtain ⟨s', hread, hlooked⟩ := fatFread_spec hg file hn h hsize hcursor out
    exact ⟨_, s', hread, hlooked.disk⟩
  · intro data n done file' s' hn hw hvalid
    refine ⟨fatFwrite_keepsOthers hg hfat h hparent hp hinside hapart hn hw hvalid, ?_⟩
    rintro rfl hend
    obtain ⟨new, hnew⟩ := fatFwrite_rewritten hg hfat h hparent hp hinside hapart (by omega) hw
      fun written s₁ hloop t ht => hvalid t (fatFwrite_keeps hw hloop t ht)
    have hgrown := hnew.chain
    rw [hlow] at hgrown
    exact ⟨new, hgrown, hnew.stored⟩
  · obtain ⟨s', hupdate, -, hentry, hkeep⟩ :=
      fatUpdateEntry_keepsOthers hg hfat file hparent hp hinside
    exact ⟨s', hupdate, hentry, hkeep⟩
  · obtain ⟨s', htruncate, hcut⟩ := truncateFile_spec hg hfat h hparent hp hinside hapart
    have hentry := fun x (hx : x ∈ l) =>
      hcut.entry x (h.valid x hx) fun hmem => hapart x hmem hx
    rw [hlow] at hentry
    refine ⟨_, s', htruncate, ⟨.last ?_, ?_⟩, ?_, hcut.stored,
      hcut.keepsOthers h.chain.head_mem⟩
    · rw [hentry _ hchain.chain.head_mem, if_pos rfl]
      exact ⟨by decide, by decide⟩
    · intro x hx
      rw [List.mem_singleton.mp hx]
      exact hchain.valid _ hchain.chain.head_mem
    · intro x hx hne
      rw [hentry x hx, if_neg hne, if_pos hx]
  · exact fatRemoveFatChain_spec hg file h

/-! ## Volumes with some clusters marked -/

/-- An empty disk on which some clusters are marked as the last ones of their files. -/
def marked (g : Bpb) : List ℕ → State
  | [] => ⟨fun _ => 0, fun _ => 0, 0xFFFFFFFF, [], []⟩
  | c :: cs => fatWriteFatEntry g (marked g cs) c 0x0FFFFFFF

theorem fatEntry_marked (hg : Geometry g) {x : ℕ} (hx : x < clusterLimit g) :
    ∀ {cs : List ℕ}, (∀ c ∈ cs, ValidCluster g c) →
      fatEntry g (marked g cs).disk x = if x ∈ cs then 0x0FFFFFFF else 0
  | [], _ => by
      rw [if_neg List.not_mem_nil, fatEntry_eq_zero_iff]
      exact fun _ _ => rfl
  | c :: cs, hvalid => by
      obtain ⟨hc, hcs⟩ := List.forall_mem_cons.mp hvalid
      rw [marked, fatEntry_fatWriteFatEntry hg hc.lt_limit hx (by decide), fatEntry_marked hg hx hcs]
      by_cases heq : x = c
      · rw [if_pos heq, if_pos (heq ▸ List.mem_cons_self)]
      · rw [if_neg heq]
        exact if_congr (List.mem_cons.trans (or_iff_right heq)).symm rfl rfl

theorem clusterByte_marked (hg : Geometry g) {x j : ℕ} (hx : ValidCluster g x) :
    ∀ {cs : List ℕ}, (∀ c ∈ cs, ValidCluster g c) → clusterByte g (marked g cs).disk x j = 0
  | [], _ => rfl
  | c :: cs, hvalid => by
      obtain ⟨hc, hcs⟩ := List.forall_mem_cons.mp hvalid
      rw [marked, clusterByte_fatWriteFatEntry hg hc.lt_limit hx, clusterByte_marked hg hx hcs]

theorem marked_chain (hg : Geometry g) {cs : List ℕ} (hvalid : ∀ c ∈ cs, ValidCluster g c)
    (hc : c ∈ cs) : FileChain g (marked g cs).disk c [c] where
  chain := by
    apply LinkedChain.last
    rw [fatEntry_marked hg (hvalid c hc).lt_limit hvalid, if_pos hc]
    exact ⟨by decide, by decide⟩
  valid := by
    intro x hx
    rw [List.mem_singleton.mp hx]
    exact hvalid c hc

/-- The handle on an empty file. -/
def emptyFile (c p : ℕ) : FatFile :=
  { fatFileDefault with
    fatDir := DirEntry.zero.setFirstCluster c
    firstParentCluster := p }

theorem emptyFile_standing (hg : Geometry g) {cs : List ℕ} (hvalid : ∀ c ∈ cs, ValidCluster g c)
    (hc : c ∈ cs) (hp : p ∈ cs) (hne : p ≠ c) :
    Standing g (marked g cs) (emptyFile c p) [c] [p] where
  chain := by
    have hlt := (hvalid c hc).lt hg
    rw [emptyFile, DirEntry.firstCluster_setFirstCluster _ (by omega)]
    exact marked_chain hg hvalid hc
  clusters := by
    have hsize : (emptyFile c p).fatDir.dirFileSize = 0 := by
      unfold emptyFile DirEntry.setFirstCluster DirEntry.setFstClusHI DirEntry.setFstClusLO
      unfold DirEntry.dirFileSize
      rw [DirEntry.field_setField_of_disjoint _ _ (by decide) (by decide),
        DirEntry.field_setField_of_disjoint _ _ (by decide) (by decide)]
      decide
    have hnone := (clustersFor_le_iff hg.clusterSize_pos (k := 0)).mpr (Nat.zero_le _)
    rw [hsize, Nat.le_zero.mp hnone]
    rfl
  parent := marked_chain hg hvalid hp
  inside := by
    have hsize := hg.clusterSize_eq
    have hpos := hg.secPerClus_pos
    show 0 + 32 ≤ 1 * g.clusterSize
    omega
  apart := by
    intro x hx hmem
    exact hne ((List.mem_singleton.mp hx).symm.trans (List.mem_singleton.mp hmem))

/-! ## Numbers of 65536 and more are not followed -/

theorem fatRemoveFatChain_stops (h : file.fatDir.dirFstClusLO < 2 ∨
    fatEntry g s.disk file.fatDir.dirFstClusLO = 0) : fatRemoveFatChain g file s = some s := by
  have hread : fatReadFatEntry g s file.fatDir.dirFstClusLO false =
    (fatEntry g s.disk file.fatDir.dirFstClusLO, s) := rfl
  rw [fatRemoveFatChain, show loopBound = 2 ^ 32 - 1 + 1 from rfl, removeChainLoop]
  split
  · rfl
  next htwo =>
  have hzero := h.resolve_left htwo
  rw [hread]
  dsimp only
  rw [hzero, if_neg (by decide), if_pos rfl]

/-- Removal from another cluster leaves the file where it is. -/
theorem lt_of_followsRecorded (hg : Geometry g) (hc : ValidCluster g c) (hp : ValidCluster g p)
    (hne : p ≠ c) (h : FollowsRecorded g c p) : c < 2 ^ 16 := by
  by_contra hhigh
  have hvalid : ∀ x ∈ [c, p], ValidCluster g x :=
    List.forall_mem_cons.mpr ⟨hc, List.forall_mem_singleton.mpr hp⟩
  have hlt := hc.lt hg
  have hlimit := hc.lt_limit
  have hfirst : (emptyFile c p).fatDir.firstCluster = c :=
    DirEntry.firstCluster_setFirstCluster _ (by omega)
  have hstand := emptyFile_standing hg hvalid List.mem_cons_self (p := p)
    (List.mem_cons_of_mem _ List.mem_cons_self) hne
  obtain ⟨s', hremove, hfreed⟩ := (h _ _ _ _ hfirst rfl hstand).removes
  have hlowlt := (emptyFile c p).fatDir.dirFstClusLO_lt
  have hgone : fatEntry g s'.disk c = 0 := by
    rw [hfreed.entry c hlimit, if_pos (List.mem_singleton_self c)]
  have hmark : fatEntry g (marked g [c, p]).disk c = 0x0FFFFFFF := by
    rw [fatEntry_marked hg hlimit hvalid, if_pos List.mem_cons_self]
  have hkept : fatEntry g s'.disk c = fatEntry g (marked g [c, p]).disk c := by
    by_cases hparent : (emptyFile c p).fatDir.dirFstClusLO = p
    · have hchain : FileChain g (marked g [c, p]).disk (emptyFile c p).fatDir.dirFstClusLO [p] := by
        rw [hparent]
        exact marked_chain hg hvalid (List.mem_cons_of_mem c (List.mem_singleton_self p))
      obtain ⟨s'', hremove', hfreed'⟩ := fatRemoveFatChain_spec hg _ hchain
      obtain rfl : s'' = s' := Option.some_inj.mp (hremove'.symm.trans hremove)
      rw [hfreed'.entry c hlimit, if_neg]
      intro hmem
      exact absurd (List.mem_singleton.mp hmem) (by omega)
    · have hstop : (emptyFile c p).fatDir.dirFstClusLO < 2 ∨
          fatEntry g (marked g [c, p]).disk (emptyFile c p).fatDir.dirFstClusLO = 0 := by
        right
        rw [fatEntry_marked hg (by omega) hvalid, if_neg]
        intro hmem
        rcases List.mem_cons.mp hmem with heq | hmem
        · omega
        · exact hparent (List.mem_singleton.mp hmem)
      rw [← Option.some_inj.mp ((fatRemoveFatChain_stops hstop).symm.trans hremove)]
  rw [hgone, hmark] at hkept
  cases hkept

theorem parentHandle_mod (p : ℕ) (s : State) : parentHandle g (p % 2 ^ 16) s = parentHandle g p s := by
  have hset : DirEntry.zero.setFstClusLO (p % 2 ^ 16) = DirEntry.zero.setFstClusLO p := by
    unfold DirEntry.setFstClusLO DirEntry.setField
    rw [leBytes_mod 2 p]
  unfold parentHandle
  rw [hset]

/-- The entry of a file in a directory with a number of 65536 or more is written as if
the number were the lower half. -/
theorem fatUpdateEntry_low (hlow : 2 ≤ file.firstParentCluster % 2 ^ 16) :
    fatUpdateEntry g file s =
      fatUpdateEntry g { file with firstParentCluster := file.firstParentCluster % 2 ^ 16 } s := by
  unfold fatUpdateEntry updateEntryWith
  dsimp only
  rw [if_neg (by omega), if_neg (by omega), parentHandle_mod]

/-- It is not written at all when the lower half is no cluster. -/
theorem fatUpdateEntry_disk (hlow : file.firstParentCluster % 2 ^ 16 < 2)
    (h : fatUpdateEntry g file s = some s') : s'.disk = s.disk := by
  unfold fatUpdateEntry updateEntryWith at h
  split at h
  · rw [← Option.some_inj.mp h]
  obtain ⟨⟨parent, s₁⟩, hparent, h⟩ := Option.bind_eq_some_iff.mp h
  obtain ⟨⟨done, parent', s₂⟩, hwrite, hrest⟩ := Option.bind_eq_some_iff.mp h
  obtain ⟨⟨count, s₃⟩, hcount, hparent⟩ := Option.bind_eq_some_iff.mp hparent
  cases hparent
  cases hrest
  have hdisk : s₁.disk = s.disk := clusterCountLoop_disk hcount
  have hfirst : ((DirEntry.zero.setFstClusLO file.firstParentCluster).setFileSize
      (u32 (count * g.secPerClus * g.bytsPerSec))).dirFstClusLO < 2 := by
    rwa [DirEntry.dirFstClusLO_setFileSize, DirEntry.dirFstClusLO_setFstClusLO]
  rw [fatFwrite, fwriteNested] at hwrite
  obtain ⟨⟨written, s₄⟩, hloop, hwrite⟩ := Option.bind_eq_some_iff.mp hwrite
  rw [show loopBound = 2 ^ 32 - 1 + 1 from rfl, fwriteLoop, if_pos (by exact hfirst)] at hloop
  cases hloop
  dsimp only at hwrite
  split at hwrite
  · obtain ⟨s₅, hupdate, hwrite⟩ := Option.bind_eq_some_iff.mp hwrite
    rw [updateEntryWith, if_pos (by exact Nat.zero_lt_two)] at hupdate
    cases hupdate
    cases hwrite
    exact hdisk
  · cases hwrite
    exact hdisk

theorem DirEntry.firstCluster_zero {e : DirEntry} (h : ∀ i < 32, e.buffer i = 0) :
    e.firstCluster = 0 := by
  have hfield : ∀ {offset k : ℕ}, offset + k ≤ 32 → e.field offset k = 0 := by
    intro offset k hk
    rw [field, leValue_eq_zero_iff, readBytes, List.forall_mem_map]
    intro i hi
    have hlt := List.mem_range.mp hi
    exact h _ (by omega)
  rw [firstCluster, dirFstClusHI, dirFstClusLO, hfield (by decide), hfield (by decide), Nat.zero_mul]

/-- The directory does not get the entry of the file. -/
theorem parent_lt_of_followsRecorded (hg : Geometry g) (hfat : 3 * g.secPerClus ≤ g.fatSz32)
    (hc : ValidCluster g c) (hp : ValidCluster g p) (hne : p ≠ c) (h : FollowsRecorded g c p) :
    p < 2 ^ 16 := by
  by_contra hhigh
  have hsize := hg.clusterSize_eq
  have hpos := hg.secPerClus_pos
  have hlt := hc.lt hg
  have hfirst : (emptyFile c p).fatDir.firstCluster = c :=
    DirEntry.firstCluster_setFirstCluster _ (by omega)
  have hparent : (emptyFile c p).firstParentCluster = p := rfl
  have hlow : p % 2 ^ 16 < 2 ^ 16 := Nat.mod_lt _ (by decide)
  -- in every case the bytes of the directory stay zero
  suffices hsame : ∃ s s', Standing g s (emptyFile c p) [c] [p] ∧
      fatUpdateEntry g (emptyFile c p) s = some s' ∧
      ∀ j < g.clusterSize, clusterByte g s'.disk p j = 0 by
    obtain ⟨s, s', hstand, hupdate, hzero⟩ := hsame
    obtain ⟨s'', hupdate', hentry, -⟩ := (h _ _ _ _ hfirst rfl hstand).updates
    obtain rfl : s'' = s' := Option.some_inj.mp (hupdate'.symm.trans hupdate)
    have hnone : (emptyFile c p).fatDir.firstCluster = 0 := by
      rw [← hentry]
      apply DirEntry.firstCluster_zero
      intro i hi
      have hplace : (emptyFile c p).entryPosition + i = i := Nat.zero_add i
      rw [entryAt, DirEntry.buffer_ofBuffer _ hi, hplace, chainByte_head (by omega),
        hzero i (by omega)]
    have htwo := hc.ge_two
    omega
  by_cases htwo : 2 ≤ p % 2 ^ 16
  · have hlimit := hp.lt_limit
    have hq : ValidCluster g (p % 2 ^ 16) := ⟨htwo, by omega⟩
    have hvalid : ∀ x ∈ [c, p, p % 2 ^ 16], ValidCluster g x := by
      rw [List.forall_mem_cons, List.forall_mem_cons, List.forall_mem_singleton]
      exact ⟨hc, hp, hq⟩
    have hstand := emptyFile_standing hg hvalid (c := c) (p := p) (by simp) (by simp) hne
    have hchain := marked_chain hg hvalid (c := p % 2 ^ 16) (by simp)
    obtain ⟨s', hupdate, -, -, hkeep⟩ := fatUpdateEntry_keepsOthers hg hfat
      { emptyFile c p with firstParentCluster := p % 2 ^ 16 } hchain hlow hstand.inside
    refine ⟨_, s', hstand, (fatUpdateEntry_low (by rwa [hparent])).trans hupdate, ?_⟩
    intro j hj
    rw [hkeep.bytes p j hp (by rw [List.mem_singleton]; omega) ?_ hj, clusterByte_marked hg hp hvalid]
    rw [fatEntry_marked hg hlimit hvalid, if_pos (by simp)]
    decide
  · have hvalid : ∀ x ∈ [c, p], ValidCluster g x :=
      List.forall_mem_cons.mpr ⟨hc, List.forall_mem_singleton.mpr hp⟩
    have hstand := emptyFile_standing hg hvalid (c := c) (p := p) (by simp) (by simp) hne
    obtain ⟨s', hupdate, -⟩ := (h _ _ _ _ hfirst rfl hstand).updates
    refine ⟨_, s', hstand, hupdate, ?_⟩
    intro j _
    unfold clusterByte
    rw [fatUpdateEntry_disk (by rw [hparent]; omega) hupdate]
    exact clusterByte_marked hg hp hvalid

/-- For a file that was created, every later operation uses its own clusters exactly
when the numbers of its first cluster and of its directory's are below 65536. -/
theorem fatCreateFile_follows_iff {attributes : UInt8} (hg : Geometry g)
    (hfat : 3 * g.secPerClus ≤ g.fatSz32)
    (h : fatCreateFile g uninitialized rootDir path attributes s = some (true, file, s'))
    (htaken : ∀ t ∈ s'.taken, ValidCluster g t)
    (hparent : ValidCluster g file.firstParentCluster)
    (hapart : file.firstParentCluster ≠ file.fatDir.firstCluster) :
    FollowsRecorded g file.fatDir.firstCluster file.firstParentCluster ↔
      file.fatDir.firstCluster < 2 ^ 16 ∧ file.firstParentCluster < 2 ^ 16 := by
  have hfirst := htaken _ (fatCreateFile_taken hg h)
  constructor
  · intro hfollows
    exact ⟨lt_of_followsRecorded hg hfirst hparent hapart hfollows,
      parent_lt_of_followsRecorded hg hfat hfirst hparent hapart hfollows⟩
  · exact fun ⟨hc, hp⟩ => followsRecorded_of_lt hg hfat hc hp

/-- The handle on the root directory in cluster 2, as `fat_init` makes it. -/
def rootFile (g : Bpb) : FatFile :=
  { fatFileDefault with
    fatDir := (DirEntry.zero.setFstClusLO 2).setFileSize 0xFFFFFFFF
    entryPosition := u32 (g.firstDataSector * g.bytsPerSec) }

/-- The first file on an empty volume. -/
theorem fatCreateFile_follows_iff_first : ∃ file s',
    fatCreateFile smallVolume .zero (rootFile smallVolume) [0x41] 0 (marked smallVolume [2]) =
        some (true, file, s') ∧
      FollowsRecorded smallVolume file.fatDir.firstCluster file.firstParentCluster := by
  have hrun : (fatCreateFile smallVolume .zero (rootFile smallVolume) [0x41] 0
      (marked smallVolume [2])).map (fun r =>
        (r.1, r.2.1.fatDir.firstCluster, r.2.1.firstParentCluster, r.2.2.taken)) =
      some (true, 3, 2, [3]) := by decide +kernel
  obtain ⟨⟨done, file, s'⟩, hcreate, hresult⟩ := Option.map_eq_some_iff.mp hrun
  simp only [Prod.mk.injEq] at hresult
  obtain ⟨rfl, hfirst, hparent, htaken⟩ := hresult
  refine ⟨file, s', hcreate, (fatCreateFile_follows_iff smallVolume_geometry (by decide) hcreate
    ?_ ?_ ?_).mpr ?_⟩
  · rw [htaken]
    exact List.forall_mem_singleton.mpr ⟨by decide, by decide⟩
  · rw [hparent]
    exact ⟨by decide, by decide⟩
  · rw [hparent, hfirst]
    decide
  · rw [hparent, hfirst]
    decide

/-! ## Creating a file in an empty directory -/

/-- A file in the directory that was given, with an 8.3 name. -/
theorem fatCreate_here {attributes : UInt8} {fresh : FatFile} (hpath : lastIndex 0x2F path = none)
    (hlen : path.length ≤ 255) (hfresh : freshFile path attributes = some fresh)
    (hplain : fresh.lfnPresent = false) :
    fatCreate g uninitialized newFile rootDir path attributes s =
      placeFile g uninitialized path.length fresh rootDir s := by
  have hparent : createParent g rootDir path s = some (true, rootDir, s) := by
    rw [createParent, hpath]
  have hname : path.drop ((lastIndex 0x2F path).elim 0 (· + 1)) = path := by
    rw [hpath]
    rfl
  have hnew : ¬ fresh.lfnPresent = true := by
    rw [hplain]
    exact Bool.false_ne_true
  rw [fatCreate, hparent, hname, Option.bind_eq_bind, Option.bind_some]
  dsimp only
  rw [if_neg (by decide), if_neg (by omega), hfresh, Option.bind_eq_bind, Option.bind_some,
    if_neg hnew]

/-- The first slot of a directory is taken when it is free. -/
theorem slotLoop_first (hg : Geometry g) (rounds : ℕ) (helper : DirEntry) {dirFile : FatFile}
    (h : Covers g s dirFile dir) (hfree : (entryAt g s.disk dir 0).dirName 0 = 0) :
    ∃ dirFile' s', slotLoop g 1 (rounds + 1) 0 0 helper dirFile s = some (some 0, dirFile', s') ∧
      dirFile'.fatDir = dirFile.fatDir ∧ Looked s s' := by
  have hsize := hg.clusterSize_eq
  have hpos := hg.secPerClus_pos
  have hroom : 32 * 0 + 32 ≤ dir.length * g.clusterSize := by
    have hle := Nat.le_mul_of_pos_left g.clusterSize h.chain.chain.length_pos
    omega
  obtain ⟨out, dirFile', s', hread, hslot, hlooked⟩ := fatFread_slot hg h hroom helper.buffer
  have hread' : fatFread g helper.buffer sizeofDirEntry (fatFseekSet dirFile 0) s =
    some (out, dirFile', s') := hread
  have hend : u32 (0 + sizeofDirEntry) = 32 := u32_of_lt (show 0 + 32 < 2 ^ 32 by decide)
  have hfull : ¬ u32 (0 + sizeofDirEntry) > dirFile.fatDir.dirFileSize := by
    rw [h.size, hend]
    omega
  have hsame : dirFile'.fatDir = (fatFseekSet dirFile 0).fatDir := fatFread_fatDir hread'
  refine ⟨dirFile', s', ?_, hsame, hlooked⟩
  rw [slotLoop]
  dsimp only
  rw [if_neg hfull, Option.bind_eq_bind, Option.bind_some]
  dsimp only
  rw [if_neg (by decide), hread', Option.bind_eq_bind, Option.bind_some]
  dsimp only
  rw [hslot, if_pos (.inl hfree), if_pos (by decide)]
  rfl

/-- The handle on a new file at the start of a directory. -/
def firstFile (newFile : FatFile) (p c : ℕ) : FatFile :=
  { newFile with
    entryPosition := 0
    firstParentCluster := p
    fatDir := newFile.fatDir.setFirstCluster c }

/-- In a directory with a free slot in front, a file gets the cluster that the search
returns. -/
theorem placeFile_first (hg : Geometry g) (hfat : 3 * g.secPerClus ≤ g.fatSz32)
    {dirFile : FatFile} {nameLength : ℕ} (hplain : newFile.lfnPresent = false)
    (hlow : dirFile.fatDir.firstCluster < 2 ^ 16)
    (hdir : FileChain g s.disk dirFile.fatDir.firstCluster dir)
    (hempty : (entryAt g s.disk dir 0).dirName 0 = 0) (hc : ValidCluster g c)
    (hfree : fatEntry g s.disk c = 0)
    (hsearch : ∀ s₁, s₁.disk = s.disk → ∃ s₂,
      Allocation.create.search g s₁ = some (some c, s₂) ∧ s₂.disk = s.disk) :
    ∃ s', placeFile g uninitialized nameLength newFile dirFile s =
        some (true, firstFile newFile dirFile.fatDir.firstCluster c, s') ∧
      fatEntry g s'.disk c = 0x0FFFFFFF ∧
      ∀ x, ValidCluster g x → x ∉ dir → fatEntry g s.disk x ≠ 0 →
        fatEntry g s'.disk x = fatEntry g s.disk x := by
  have hsize := hg.clusterSize_eq
  have hpos := hg.secPerClus_pos
  have hlen := hdir.chain.length_pos
  have hLO := DirEntry.dirFstClusLO_of_lt hlow
  have hroom : 0 + 32 ≤ dir.length * g.clusterSize := by
    have hle := Nat.le_mul_of_pos_left g.clusterSize hlen
    omega
  -- the handle covers the directory
  have hall : dir.length * g.bytsPerSec * g.secPerClus = dir.length * g.clusterSize := by
    rw [hsize, hg.bytsPerSec, mul_assoc, mul_comm 512]
  obtain ⟨s₁, hcount, hlooked, hcovers⟩ := covers_counted hg dirFile (by rwa [hLO]) hall
  obtain ⟨dirFile', s₂, hslot, hsame, hlooked'⟩ := slotLoop_first hg (2 ^ 32 - 1)
    uninitialized hcovers (by rwa [hlooked.disk])
  have hdisk₂ : s₂.disk = s.disk := hlooked'.disk.trans hlooked.disk
  obtain ⟨s₃, hfind, hdisk₃⟩ := hsearch s₂ hdisk₂
  -- the cluster is marked and cleared
  have hentry : ∀ x, x < clusterLimit g →
      fatEntry g (fatClearCluster g (fatWriteFatEntry g s₃ c 0x0FFFFFFF) c).disk x =
        if x = c then 0x0FFFFFFF else fatEntry g s.disk x := by
    intro x hx
    rw [fatEntry_fatClearCluster hg hc hx,
      fatEntry_fatWriteFatEntry hg hc.lt_limit hx (by decide), hdisk₃]
  have hapart : ∀ x ∈ dir, x ≠ c := by
    rintro x hx rfl
    exact hdir.entry_ne_zero hg x hx hfree
  have hdir' : FileChain g (fatClearCluster g (fatWriteFatEntry g s₃ c 0x0FFFFFFF) c).disk
      dirFile.fatDir.firstCluster dir := by
    apply hdir.congr
    intro x hx
    rw [hentry x (hdir.valid x hx).lt_limit, if_neg (hapart x hx)]
  -- the entry is stored
  have hfirst : u32 (dirFile'.fatDir.dirFstClusLO + dirFile'.fatDir.dirFstClusHI * 2 ^ 16) =
      dirFile.fatDir.firstCluster := by
    have hHI : (dirFile.fatDir.setFileSize (u32 (dir.length * g.bytsPerSec *
        g.secPerClus))).dirFstClusHI = dirFile.fatDir.dirFstClusHI :=
      DirEntry.field_setField_of_disjoint _ _ (by decide) (by decide)
    rw [hsame, DirEntry.dirFstClusLO_setFileSize, hHI, add_comm]
    exact u32_of_lt (show dirFile.fatDir.firstCluster < 2 ^ 32 by omega)
  obtain ⟨s₄, hupdate, hwritten, -, hkeep⟩ := fatUpdateEntry_keepsOthers hg hfat
    (firstFile newFile dirFile.fatDir.firstCluster c) hdir' hlow hroom
  have hdir₄ : FileChain g s₄.disk dirFile.fatDir.firstCluster dir := by
    rw [← List.append_nil dir]
    exact hwritten.chain
  obtain ⟨parentDir, s₅, hlfn, hdisk₅, -⟩ := lfnParent_spec hg
    (show (firstFile newFile dirFile.fatDir.firstCluster c).firstParentCluster < 2 ^ 16 from hlow) hdir₄
  have hplain' : ¬ (firstFile newFile dirFile.fatDir.firstCluster c).lfnPresent = true := by
    have hsame : (firstFile newFile dirFile.fatDir.firstCluster c).lfnPresent = newFile.lfnPresent := rfl
    rw [hsame, hplain]
    exact Bool.false_ne_true
  have hupdateLfn : fatUpdateLfn g (firstFile newFile dirFile.fatDir.firstCluster c) false
      uninitialized s₄ = some s₅ := by
    rw [fatUpdateLfn, if_neg Bool.false_ne_true, recreateLfn, hlfn, Option.bind_eq_bind,
      Option.bind_some]
    dsimp only
    rw [if_neg hplain']
    rfl
  have hkept : ∀ x, ValidCluster g x → x ∉ dir → (if x = c then 0x0FFFFFFF else
      fatEntry g s.disk x) ≠ 0 → fatEntry g s₅.disk x =
        if x = c then 0x0FFFFFFF else fatEntry g s.disk x := by
    intro x hx hxdir hused
    have hsame := hkeep.entry x hx hxdir
    rw [hentry x hx.lt_limit] at hsame
    rw [hdisk₅, hsame hused]
  refine ⟨s₅, ?_, ?_, ?_⟩
  · have hnew : ¬ newFile.lfnPresent = true := hplain'
    refine Option.bind_eq_some_iff.mpr ⟨(dir.length, s₁), hcount, ?_⟩
    dsimp only
    rw [if_neg hnew]
    refine Option.bind_eq_some_iff.mpr ⟨(some 0, dirFile', s₂), hslot, ?_⟩
    refine Option.bind_eq_some_iff.mpr ⟨(some c, s₃), hfind, ?_⟩
    dsimp only
    rw [hfirst]
    exact Option.bind_eq_some_iff.mpr
      ⟨s₄, hupdate, Option.bind_eq_some_iff.mpr ⟨s₅, hupdateLfn, rfl⟩⟩
  · have hmark := hkept c hc (fun hmem => hapart c hmem rfl)
    rw [if_pos rfl] at hmark
    exact hmark (by decide)
  · intro x hx hxdir hused
    have hne : x ≠ c := by
      rintro rfl
      exact hused hfree
    have hsame := hkept x hx hxdir
    rw [if_neg hne] at hsame
    exact hsame hused

/-! ## A volume with 65559 clusters -/

/-- One reserved sector, two FAT copies of 520, 65559 data clusters of one sector. -/
def bigVolume : Bpb :=
  { bytsPerSec := 512
    secPerClus := 1
    rsvdSecCnt := 1
    numFats := 2
    totSec16 := 0
    totSec32 := 66600
    fatSz32 := 520 }

theorem bigVolume_geometry : Geometry bigVolume where
  bytsPerSec := rfl
  numFats := rfl
  secPerClus_pos := by decide
  secPerClus_lt := by decide
  rsvdSecCnt_pos := by decide
  rsvdSecCnt_lt := by decide
  fits := by decide
  diskSize_le := by decide
  fatHolds := by decide

/-- A disk on which the clusters in front of 65539 are in use, each the only one of its
file, and all data is zero. -/
def crowdedDisk (x : ℕ) : UInt8 :=
  if 512 + 4 * 2 ≤ x ∧ x < 512 + 4 * 65539 ∨ 266752 + 4 * 2 ≤ x ∧ x < 266752 + 4 * 65539 then
    if x % 4 = 3 then 0x0F else 0xFF
  else 0

def crowdedState : State := ⟨crowdedDisk, fun _ => 0, 0xFFFFFFFF, [], []⟩

theorem fatEntry_crowdedDisk (hc : ValidCluster bigVolume c) :
    fatEntry bigVolume crowdedDisk c = if c < 65539 then 0x0FFFFFFF else 0 := by
  have hlimit : clusterLimit bigVolume = 65561 := by decide +kernel
  have hlt := hc.lt_limit
  have htwo := hc.ge_two
  have hoffset : bigVolume.fatEntryOffset c = 512 + 4 * c := by
    rw [bigVolume_geometry.fatEntryOffset_of_lt (by omega)]
    show 1 * 512 + c * 4 = _
    omega
  rw [fatEntry, hoffset]
  split
  · next hused =>
    have hread : readBytes crowdedDisk (512 + 4 * c) 4 =
        readBytes (fun x => if x % 4 = 3 then 0x0F else 0xFF) 0 4 := by
      apply readBytes_congr
      intro i hi
      have hmod : (512 + 4 * c + i) % 4 = (0 + i) % 4 := by omega
      rw [crowdedDisk, if_pos (by omega), hmod]
    rw [hread]
    decide
  · next hfree =>
    rw [leValue_eq_zero_iff, readBytes, List.forall_mem_map]
    intro i hi
    have hfour := List.mem_range.mp hi
    rw [crowdedDisk, if_neg (by omega)]

theorem clusterByte_crowdedDisk (hc : ValidCluster bigVolume c) (j : ℕ) :
    clusterByte bigVolume crowdedDisk c j = 0 := by
  have hsector : bigVolume.firstDataSector = 1041 := by decide +kernel
  rw [clusterByte, bigVolume_geometry.clusterOffset_eq hc, hsector, crowdedDisk, if_neg (by omega)]

theorem search_crowded (hdisk : s.disk = crowdedDisk) : ∃ s',
    Allocation.create.search bigVolume s = some (some 65539, s') ∧ s'.disk = crowdedDisk := by
  have hsome := bigVolume_geometry.search_isSome (s := s) (a := .create) (by decide)
  obtain ⟨⟨r, s'⟩, hsearch⟩ := Option.isSome_iff_exists.mp hsome
  obtain ⟨hsame, hspec⟩ := bigVolume_geometry.search_spec (by decide) hsearch
  have hused : ∀ y, 2 ≤ y → y < 65539 → fatEntry bigVolume crowdedDisk y ≠ 0 := by
    intro y htwo hlt
    rw [fatEntry_crowdedDisk ⟨htwo, by exact hlt.trans (by decide)⟩, if_pos hlt]
    decide
  have hzero : fatEntry bigVolume crowdedDisk 65539 = 0 := by
    rw [fatEntry_crowdedDisk ⟨by decide, by decide⟩, if_neg (by decide)]
  have hcomes : Comes bigVolume crowdedDisk 2 65539 :=
    (bigVolume_geometry.comes_iff (by decide)).mpr ⟨by decide, .inr (by decide), hused⟩
  rw [hdisk] at hspec
  rcases hspec with ⟨-, hnone⟩ | ⟨f, hf, hcomes', hfree⟩
  · exact absurd hzero (hnone _ hcomes)
  · obtain ⟨htwo, -, hbefore⟩ := (bigVolume_geometry.comes_iff (by decide)).mp hcomes'
    have hge : 65539 ≤ f := by
      by_contra hlt
      exact hused f htwo (not_le.mp hlt) hfree
    have hle : f ≤ 65539 := by
      by_contra hlt
      exact hbefore _ (by decide) (not_le.mp hlt) hzero
    have heq : f = 65539 := le_antisymm hle hge
    dsimp only at hf hsame
    rw [hf, heq] at hsearch
    exact ⟨s', hsearch, hsame.trans hdisk⟩

/-- The new file `A` gets cluster 65539, and its removal frees cluster 3, which is
another file's. -/
theorem fatCreateFile_frees_other : ∃ file s' s'',
    fatCreateFile bigVolume .zero (rootFile bigVolume) [0x41] 0 crowdedState =
        some (true, file, s') ∧
      file.fatDir.firstCluster = 65539 ∧ fatRemoveFatChain bigVolume file s' = some s'' ∧
      fatEntry bigVolume s'.disk 3 = 0x0FFFFFFF ∧ fatEntry bigVolume s''.disk 3 = 0 ∧
      fatEntry bigVolume s''.disk 65539 = 0x0FFFFFFF := by
  have hg := bigVolume_geometry
  have hc : ValidCluster bigVolume 65539 := ⟨by decide, by decide⟩
  have hroot : (rootFile bigVolume).fatDir.firstCluster = 2 := by decide +kernel
  have hdir : FileChain bigVolume crowdedDisk 2 [2] := by
    refine ⟨.last ?_, List.forall_mem_singleton.mpr ⟨by decide, by decide⟩⟩
    rw [fatEntry_crowdedDisk ⟨by decide, by decide⟩, if_pos (by decide)]
    exact ⟨by decide, by decide⟩
  have hempty : (entryAt bigVolume crowdedDisk [2] 0).dirName 0 = 0 := by
    rw [entryAt, DirEntry.dirName, DirEntry.buffer_ofBuffer _ (by decide),
      chainByte_head (by decide +kernel)]
    exact clusterByte_crowdedDisk ⟨by decide, by decide⟩ _
  -- the lookup and the name
  have hmissing : (fatFind bigVolume (rootFile bigVolume) [0x41] true false crowdedState).map
      (fun r => r.1.found) = some .notFound := by decide +kernel
  obtain ⟨⟨r, s₁⟩, hfind, hfound⟩ := Option.map_eq_some_iff.mp hmissing
  have hlooked := fatFind_looks hfind
  have hsame : r.rootDir = rootFile bigVolume := hlooked.root.trans (by decide +kernel)
  have hdisk : s₁.disk = crowdedDisk := hlooked.disk
  have hname : (freshFile [0x41] (0x20 ||| 0)).map FatFile.lfnPresent = some false := by
    decide +kernel
  obtain ⟨fresh, hfresh, hplain⟩ := Option.map_eq_some_iff.mp hname
  -- the entry and the cluster
  have hsearch : ∀ s₂, s₂.disk = s₁.disk → ∃ s₃,
      Allocation.create.search bigVolume s₂ = some (some 65539, s₃) ∧ s₃.disk = s₁.disk := by
    intro s₂ hs₂
    rw [hdisk] at hs₂ ⊢
    exact search_crowded hs₂
  obtain ⟨s', hplace, hmark, hkept⟩ := placeFile_first (s := s₁) hg
    (by decide) hplain (by rw [hroot]; decide) (by rwa [hroot, hdisk])
    (by simpa only [hdisk] using hempty) hc (by rw [hdisk, fatEntry_crowdedDisk hc, if_neg (by decide)])
    hsearch
  have hcreate : fatCreateFile bigVolume .zero (rootFile bigVolume) [0x41] 0 crowdedState =
      some (true, firstFile fresh (rootFile bigVolume).fatDir.firstCluster 65539, s') := by
    refine Option.bind_eq_some_iff.mpr ⟨(r, s₁), hfind, ?_⟩
    dsimp only
    rw [if_neg (by rw [hfound]; exact not_not.mpr rfl), hsame]
    exact (fatCreate_here (by decide) (by decide) hfresh hplain).trans hplace
  -- the removal begins at cluster 3
  have hthree : ValidCluster bigVolume 3 := ⟨by decide, by decide⟩
  have hother : fatEntry bigVolume s'.disk 3 = 0x0FFFFFFF := by
    have hused : fatEntry bigVolume s₁.disk 3 = 0x0FFFFFFF := by
      rw [hdisk, fatEntry_crowdedDisk hthree, if_pos (by decide)]
    rw [hkept 3 hthree (by decide) (by rw [hused]; decide), hused]
  have hfirst : (firstFile fresh (rootFile bigVolume).fatDir.firstCluster 65539).fatDir.firstCluster =
      65539 := fresh.fatDir.firstCluster_setFirstCluster (by decide)
  have hchain : FileChain bigVolume s'.disk
      (firstFile fresh (rootFile bigVolume).fatDir.firstCluster 65539).fatDir.dirFstClusLO [3] := by
    rw [DirEntry.dirFstClusLO_eq, hfirst, show 65539 % 2 ^ 16 = 3 from rfl]
    refine ⟨.last ?_, List.forall_mem_singleton.mpr hthree⟩
    rw [hother]
    exact ⟨by decide, by decide⟩
  obtain ⟨s'', hremove, hfreed⟩ := fatRemoveFatChain_spec hg _ hchain
  refine ⟨_, s', s'', hcreate, hfirst, hremove, hother, ?_, ?_⟩
  · rw [hfreed.entry 3 (by decide), if_pos (by decide)]
  · rw [hfreed.entry 65539 (by decide), if_neg (by decide), hmark]

end Neos.Fat
