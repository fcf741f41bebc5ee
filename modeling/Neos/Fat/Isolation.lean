import Neos.Fat.Handles
import Neos.Fat.Operations

/-!
# What an operation on one file does to the others

An operation on a file changes its own clusters, clusters that were free, and the slot
of its entry in the directory.  Files with clusters and slots of their own do not see
it, and go on having them.
-/

namespace Neos.Fat

open ByteRange

variable {g : Bpb} {s s' s₁ : State} {file other : FatFile} {l l' dir own ownDir : List ℕ}
  {data : ℕ → UInt8} {n : ℕ}

/-! ## What an operation touches -/

/-- The operation on the file with the chain `l` and an entry in the directory `dir`
leaves it the chain `l'`. -/
structure Touches (g : Bpb) (s s' : State) (file : FatFile) (l l' dir : List ℕ) : Prop where
  keeps : KeepsOthers g s s' (l ++ dir)
  fresh : ∀ x ∈ l', x ∈ l ∨ fatEntry g s.disk x = 0
  parent : FileChain g s'.disk file.firstParentCluster dir
  slots : ∀ j, j < dir.length * g.clusterSize →
    ¬ (file.entryPosition ≤ j ∧ j < file.entryPosition + 32) →
      chainByte g s'.disk dir j = chainByte g s.disk dir j
  taken : ∀ t ∈ s'.taken, t ∈ s.taken ∨ t ∈ l'

/-- Nothing is touched when only the cache changes. -/
theorem touches_same (h : OpenFile g s file l dir) (hdisk : s'.disk = s.disk)
    (htaken : s'.taken = s.taken) : Touches g s s' file l l dir := by
  refine ⟨?_, fun x hx => .inl hx, ?_, ?_, ?_⟩
  · constructor
    · intro x _ _ _
      rw [hdisk]
    · intro x j _ _ _ _
      rw [hdisk]
  · rw [hdisk]
    exact h.parent
  · intro j _ _
    rw [hdisk]
  · intro t ht
    rw [htaken] at ht
    exact .inl ht

/-- What is touched depends on the disk and the place of the entry only. -/
theorem Touches.of_same {file₁ : FatFile} (h : Touches g s₁ s' file₁ l l' dir)
    (hdisk : s₁.disk = s.disk) (htaken : s₁.taken = s.taken)
    (hposition : file₁.entryPosition = file.entryPosition)
    (hparent : file₁.firstParentCluster = file.firstParentCluster) :
    Touches g s s' file l l' dir := by
  obtain ⟨⟨hentry, hbytes⟩, hfresh, hdir, hslots, htaken'⟩ := h
  rw [hdisk] at hentry hbytes hfresh hslots
  rw [htaken] at htaken'
  rw [hposition] at hslots
  rw [hparent] at hdir
  exact ⟨⟨hentry, hbytes⟩, hfresh, hdir, hslots, htaken'⟩

/-- An entry is stored in its slot. -/
theorem Written.slots {e : DirEntry} {position first : ℕ}
    (h : Written g e.buffer position 32 0 s s' first dir []) {j : ℕ}
    (hj : j < dir.length * g.clusterSize) (hout : ¬ (position ≤ j ∧ j < position + 32)) :
    chainByte g s'.disk dir j = chainByte g s.disk dir j := by
  have hbyte := h.bytes j (by rwa [List.append_nil])
  rwa [List.append_nil, Nat.zero_add, if_neg hout, if_pos hj] at hbyte

theorem lfnParent_taken {r : FatFile × State} (h : lfnParent g file s = some r) :
    r.2.taken = s.taken := by
  obtain ⟨⟨count, s₁⟩, hcount, hrest⟩ := Option.bind_eq_some_iff.mp h
  rw [← Option.some_inj.mp hrest]
  exact clusterCountLoop_taken hcount

/-- A successful write takes free clusters, and changes the slot of the entry at most. -/
theorem fatFwrite_touches (hg : Geometry g) (hfat : 3 * g.secPerClus ≤ g.fatSz32)
    (h : OpenFile g s file l dir) (hpn : file.cursor + n + 2 ^ 17 ≤ 2 ^ 32)
    (hw : fatFwrite g data n file s = some (true, other, s'))
    (hvalid : ∀ t ∈ s'.taken, ValidCluster g t) :
    ∃ new, s'.taken = new.reverse ++ s.taken ∧ Touches g s s' file l (l ++ new) dir := by
  have hkeeps := fatFwrite_keepsOthers hg hfat h.chain h.parent h.parent_lt h.inside h.apart
    (by omega) hw hvalid
  have hloop : ∀ written s₁, fwriteLoop g data n file loopBound file.fatDir.dirFstClusLO 0 0 s =
      some (some written, s₁) → ∀ t ∈ s₁.taken, ValidCluster g t :=
    fun written s₁ hloop t ht => hvalid t (fatFwrite_keeps hw hloop t ht)
  rw [fatFwrite, fwriteNested] at hw
  obtain ⟨s₁, new, hwritten, hcases⟩ := fwriteWith_of_loop hg hfat h.chain hpn hw hloop
  have hparent₁ := hwritten.chain_other hg h.parent h.apart
  have hslots₁ := fun j hj => hwritten.bytes_other hg h.parent h.apart (j := j) hj
  have hfresh : ∀ x ∈ l ++ new, x ∈ l ∨ fatEntry g s.disk x = 0 := fun x hx =>
    (List.mem_append.mp hx).imp id (hwritten.fresh x)
  have htaken : ∀ {s₂ : State}, s₂.taken = new.reverse ++ s.taken →
      ∀ t ∈ s₂.taken, t ∈ s.taken ∨ t ∈ l ++ new := by
    intro s₂ heq t ht
    rw [heq] at ht
    rcases List.mem_append.mp ht with hnew | hold
    · exact .inr (List.mem_append_right l (List.mem_reverse.mp hnew))
    · exact .inl hold
  rcases hcases with ⟨-, -, rfl⟩ | ⟨-, rfl, hupdate⟩
  · exact ⟨new, hwritten.taken, hkeeps, hfresh, hparent₁, fun j hj _ => hslots₁ j hj,
      htaken hwritten.taken⟩
  · have hfirst := (h.parent.valid _ h.parent.chain.head_mem).ge_two
    obtain ⟨s₂, hupdate', hentry⟩ := updateEntryWith_spec hg hfat
      (updateEntryWith g (fwriteNested g 0))
      { file with
        cursor := file.cursor + n
        fatDir := file.fatDir.setFileSize (file.cursor + n) }
      hfirst h.parent_lt hparent₁ h.inside
    obtain rfl : s₂ = s' := Option.some_inj.mp (hupdate'.symm.trans hupdate)
    have hparent₂ := hentry.chain
    rw [List.append_nil] at hparent₂
    have htaken₂ : s₂.taken = new.reverse ++ s.taken := hentry.taken.trans hwritten.taken
    refine ⟨new, htaken₂, hkeeps, hfresh, hparent₂, ?_, htaken htaken₂⟩
    intro j hj hout
    rw [hentry.slots hj hout, hslots₁ j hj]

/-- A truncation changes the slot of the entry in the directory. -/
theorem truncateFile_touches (hg : Geometry g) (hfat : 3 * g.secPerClus ≤ g.fatSz32)
    (h : OpenFile g s file l dir) :
    ∃ s', truncateFile g file s = some ({ file with fatDir := file.fatDir.setFileSize 0 }, s') ∧
      OpenFile g s' { file with fatDir := file.fatDir.setFileSize 0 } [file.fatDir.dirFstClusLO]
        dir ∧ Touches g s s' file l [file.fatDir.dirFstClusLO] dir := by
  have hhead := h.chain.chain.head_mem
  have hfirst := h.chain.valid _ hhead
  have hlow : (file.fatDir.setFileSize 0).dirFstClusLO = file.fatDir.dirFstClusLO :=
    DirEntry.dirFstClusLO_setFileSize _ _
  obtain ⟨s', hcut, htruncated⟩ := truncateFile_spec hg hfat h.chain h.parent h.parent_lt h.inside
    h.apart
  obtain ⟨s₁, hupdate, hwritten, -, hkeep⟩ := fatUpdateEntry_keepsOthers hg hfat
    { file with fatDir := file.fatDir.setFileSize 0 } h.parent h.parent_lt h.inside
  have h₁ : FileChain g s₁.disk (file.fatDir.setFileSize 0).dirFstClusLO l := by
    rw [hlow]
    exact h.chain.keep hg hkeep fun x hx hmem => h.apart x hmem hx
  obtain ⟨s₂, hremove, hfreed⟩ := fatRemoveFatChain_spec hg
    { file with fatDir := file.fatDir.setFileSize 0 } h₁
  have hlast : s' = fatWriteFatEntry g s₂ file.fatDir.dirFstClusLO 0x0FFFFFFF := by
    unfold truncateFile at hcut
    dsimp only at hcut
    rw [hupdate, Option.bind_eq_bind, Option.bind_some, hremove, Option.bind_some, hlow] at hcut
    exact (Prod.mk.inj (Option.some_inj.mp hcut)).2.symm
  refine ⟨s', hcut, htruncated.opened hg.clusterSize_pos h, htruncated.keepsOthers hhead, ?_,
    htruncated.parent, ?_, ?_⟩
  · intro x hx
    rw [List.mem_singleton.mp hx]
    exact .inl hhead
  · intro j hj hout
    have hsame : chainByte g s'.disk dir j = chainByte g s₁.disk dir j := by
      apply chainByte_congr hg.clusterSize_pos _ hj
      intro x hx k _
      have hx' := h.parent.valid x hx
      rw [hlast, clusterByte_fatWriteFatEntry hg hfirst.lt_limit hx', hfreed.bytes x k hx']
    rw [hsame, hwritten.slots hj hout]
  · intro t ht
    rw [htruncated.taken] at ht
    exact .inl ht

/-- The removal of a file without a long name frees its chain. -/
theorem fatFremove_touches (hg : Geometry g) (hfat : 3 * g.secPerClus ≤ g.fatSz32)
    (h : OpenFile g s file l dir) (hplain : file.lfnPresent = false) (uninitialized : DirEntry) :
    ∃ file' s', fatFremove g uninitialized file s = some (file', s') ∧
      file'.entryPosition = file.entryPosition ∧
      file'.firstParentCluster = file.firstParentCluster ∧ Touches g s s' file l [] dir := by
  obtain ⟨parentDir, s₁, hlfn, hdisk₁, -⟩ := lfnParent_spec hg h.parent_lt h.parent
  have htaken₁ : s₁.taken = s.taken := lfnParent_taken hlfn
  have hupdated : fatUpdateLfn g file true uninitialized s = some s₁ := by
    have hnot : ¬ file.lfnPresent = true := by
      rw [hplain]
      exact Bool.false_ne_true
    unfold fatUpdateLfn removeLfn
    rw [if_pos rfl, hlfn, Option.bind_eq_bind, Option.bind_some]
    dsimp only
    rw [if_neg hnot]
    rfl
  have hlow : (file.fatDir.setField 0 1 0xE5).dirFstClusLO = file.fatDir.dirFstClusLO :=
    DirEntry.field_setField_of_disjoint _ _ (by decide) (by decide)
  have hparent₁ : FileChain g s₁.disk file.firstParentCluster dir := by
    rw [hdisk₁]
    exact h.parent
  obtain ⟨s₂, hupdate, hwritten, -, hkeep⟩ := fatUpdateEntry_keepsOthers hg hfat
    { file with fatDir := file.fatDir.setField 0 1 0xE5 } hparent₁ h.parent_lt h.inside
  have h₂ : FileChain g s₂.disk (file.fatDir.setField 0 1 0xE5).dirFstClusLO l := by
    rw [hlow]
    have h₁ : FileChain g s₁.disk file.fatDir.dirFstClusLO l := by
      rw [hdisk₁]
      exact h.chain
    exact h₁.keep hg hkeep fun x hx hmem => h.apart x hmem hx
  obtain ⟨s₃, hremove, hfreed⟩ := fatRemoveFatChain_spec hg
    { file with fatDir := file.fatDir.setField 0 1 0xE5 } h₂
  have hparent₂ := hwritten.chain
  rw [List.append_nil] at hparent₂
  refine ⟨{ file with fatDir := file.fatDir.setField 0 1 0xE5 }, s₃, ?_, rfl, rfl, ?_⟩
  · unfold fatFremove
    rw [hupdated, Option.bind_eq_bind, Option.bind_some]
    dsimp only
    rw [hupdate, Option.bind_some, hremove]
    rfl
  suffices htouches : Touches g s₁ s₃ file l [] dir from
    htouches.of_same hdisk₁ htaken₁ rfl rfl
  refine ⟨?_, fun x hx => absurd hx List.not_mem_nil, ?_, ?_, ?_⟩
  · refine (hkeep.mono fun x hx => List.mem_append_right l hx).trans hfreed.keepsOthers ?_
    exact fun x hx => .inl (List.mem_append_left dir hx)
  · exact hparent₂.keep hg hfreed.keepsOthers h.apart
  · intro j hj hout
    have hsame : chainByte g s₃.disk dir j = chainByte g s₂.disk dir j := by
      apply chainByte_congr hg.clusterSize_pos _ hj
      exact fun x hx k _ => hfreed.bytes x k (h.parent.valid x hx)
    rw [hsame, hwritten.slots hj hout]
  · intro t ht
    rw [hfreed.taken, hwritten.taken] at ht
    exact .inl ht

/-! ## The handle that a lookup returns -/

/-- The handles on files that a search returns are at the start. -/
def FindsAtStart (find : Find) : Prop :=
  ∀ q dir s r s', find q dir s = some (r, s') → r.fileOut.cursor = 0

theorem visitNamed_cursor {find : Find} (hfind : FindsAtStart find) {q : Query} {rootDir : FatFile}
    {dirOffset entries : ℕ} {lfnPresent : Bool} {subdir : FatFile} {r : FindResult}
    (h : visitNamed find q rootDir dirOffset entries lfnPresent subdir s = some (.stop r, s')) :
    r.fileOut.cursor = 0 := by
  unfold visitNamed at h
  dsimp only at h
  split at h
  · split at h
    · split at h
      · cases h
        rfl
      · cases h
        rfl
    · cases h
  split at h
  · split at h
    · split at h
      · split at h
        · cases h
        · cases h
          rfl
      · obtain ⟨⟨r', s₁⟩, hcall, hrest⟩ := Option.bind_eq_some_iff.mp h
        cases hrest
        have hcursor := hfind _ _ _ _ _ hcall
        exact hcursor
    · split at h
      · cases h
        rfl
      · cases h
  · cases h

theorem findLoop_cursor {find : Find} (hfind : FindsAtStart find) {q : Query}
    {rootDir directory : FatFile} :
    ∀ {rounds dirOffset entries : ℕ} {lfnPresent : Bool} {subdir : FatFile} {s : State}
      {r : FindResult},
      findLoop g find q rootDir directory rounds dirOffset entries lfnPresent subdir s =
        some (r, s') → r.fileOut.cursor = 0
  | rounds + 1, dirOffset, entries, lfnPresent, subdir, s, r, h => by
      rw [findLoop] at h
      split at h
      · cases h
        rfl
      obtain ⟨⟨out, directory', s₁⟩, -, h⟩ := Option.bind_eq_some_iff.mp h
      dsimp only at h
      split at h
      · cases h
        rfl
      split at h
      · exact findLoop_cursor hfind h
      split at h
      · obtain ⟨longFilename, -, h⟩ := Option.bind_eq_some_iff.mp h
        exact findLoop_cursor hfind h
      · obtain ⟨⟨visit, s₂⟩, hvisit, h⟩ := Option.bind_eq_some_iff.mp h
        obtain ⟨named, -, hnamed⟩ := Option.bind_eq_some_iff.mp hvisit
        cases visit with
        | stop r' =>
            cases h
            exact visitNamed_cursor hfind hnamed
        | next subdir' => exact findLoop_cursor hfind h

theorem findNested_cursor (g : Bpb) : ∀ depth, FindsAtStart (findNested g depth)
  | 0 => fun _ _ _ _ _ h => nomatch h
  | depth + 1 => by
      intro q dir s r s' h
      obtain ⟨⟨count, s₁⟩, -, h⟩ := Option.bind_eq_some_iff.mp h
      exact findLoop_cursor (findNested_cursor g depth) h

theorem fatFind_cursor {rootDir : FatFile} {path : List UInt8} {isFile readAtCursor : Bool}
    {r : FindResult} (h : fatFind g rootDir path isFile readAtCursor s = some (r, s')) :
    r.fileOut.cursor = 0 :=
  findNested_cursor g _ _ _ _ _ _ h

/-! ## Files apart from each other -/

/-- The other file and its entry have clusters and a slot of their own. -/
structure Apart (file : FatFile) (l dir : List ℕ) (other : FatFile) (own ownDir : List ℕ) : Prop where
  chains : ∀ x ∈ own, x ∉ l
  ownNotDir : ∀ x ∈ own, x ∉ dir
  dirNotChain : ∀ x ∈ ownDir, x ∉ l
  entries : (∀ x ∈ ownDir, x ∉ dir) ∨
    ownDir = dir ∧ (other.entryPosition + 32 ≤ file.entryPosition ∨
      file.entryPosition + 32 ≤ other.entryPosition)

theorem Apart.symm (h : Apart file l dir other own ownDir) : Apart other own ownDir file l dir where
  chains x hx hown := h.chains x hown hx
  ownNotDir x hx hdir := h.dirNotChain x hdir hx
  dirNotChain x hx hown := h.ownNotDir x hown hx
  entries := h.entries.imp (fun hnot x hx hdir => hnot x hdir hx)
    fun ⟨heq, hslots⟩ => ⟨heq.symm, hslots.symm⟩

theorem Apart.of_position {file' : FatFile} (h : Apart file l dir other own ownDir)
    (hposition : file'.entryPosition = file.entryPosition) :
    Apart file' l dir other own ownDir := by
  obtain ⟨hchains, hown, hdir, hentries⟩ := h
  rw [← hposition] at hentries
  exact ⟨hchains, hown, hdir, hentries⟩

/-- The other file stays as it is. -/
theorem Touches.others (hg : Geometry g) (htouch : Touches g s s' file l l' dir)
    (h : OpenFile g s file l dir) (hother : OpenFile g s other own ownDir) (hapart : Apart file l dir other own ownDir) :
    OpenFile g s' other own ownDir ∧ ∀ j, j < own.length * g.clusterSize →
      chainByte g s'.disk own j = chainByte g s.disk own j := by
  have hleft : ∀ x ∈ own, x ∉ l ++ dir := fun x hx hmem =>
    (List.mem_append.mp hmem).elim (hapart.chains x hx) (hapart.ownNotDir x hx)
  have hbytes : ∀ {k : List ℕ} {first : ℕ}, FileChain g s.disk first k → (∀ x ∈ k, x ∉ l ++ dir) →
      ∀ j, j < k.length * g.clusterSize → chainByte g s'.disk k j = chainByte g s.disk k j := by
    intro k first hk hnot j hj
    apply chainByte_congr hg.clusterSize_pos _ hj
    exact fun x hx i hi => htouch.keeps.bytes x i (hk.valid x hx) (hnot x hx)
      (hk.entry_ne_zero hg x hx) hi
  refine ⟨⟨hother.chain.keep hg htouch.keeps hleft, hother.clusters, ?_, hother.parent_lt,
    hother.inside, hother.apart, ?_⟩, hbytes hother.chain hleft⟩
  · rcases hapart.entries with hnot | ⟨rfl, -⟩
    · apply hother.parent.keep hg htouch.keeps
      exact fun x hx hmem => (List.mem_append.mp hmem).elim (hapart.dirNotChain x hx) (hnot x hx)
    · rw [hother.parent.chain.eq_of_same h.parent.chain]
      exact htouch.parent
  · rw [← hother.entry]
    apply DirEntry.ext_buffer
    intro i hi
    have hinside := hother.inside
    rw [entryAt, entryAt, DirEntry.buffer_ofBuffer _ hi, DirEntry.buffer_ofBuffer _ hi]
    rcases hapart.entries with hnot | ⟨rfl, hslots⟩
    · apply hbytes hother.parent _ _ (by omega)
      exact fun x hx hmem => (List.mem_append.mp hmem).elim (hapart.dirNotChain x hx) (hnot x hx)
    · exact htouch.slots _ (by omega) (by omega)

/-- And it stays apart. -/
theorem Touches.apart (hg : Geometry g) (htouch : Touches g s s' file l l' dir)
    (hother : OpenFile g s other own ownDir) (hapart : Apart file l dir other own ownDir) :
    Apart file l' dir other own ownDir where
  chains x hx hmem := (htouch.fresh x hmem).elim (hapart.chains x hx)
    (hother.chain.entry_ne_zero hg x hx)
  ownNotDir := hapart.ownNotDir
  dirNotChain x hx hmem := (htouch.fresh x hmem).elim (hapart.dirNotChain x hx)
    (hother.parent.entry_ne_zero hg x hx)
  entries := hapart.entries

end Neos.Fat
