import Neos.Fat.Creation

/-!
# What the operations on a file leave alone

`fat_fwrite` and `fat_update_entry` change the clusters of the file, those of the
directory that holds its entry, and clusters that were free; `fat_remove_fat_chain`
frees the clusters of the file and nothing else.
-/

namespace Neos.Fat

open ByteRange

variable {g : Bpb} {s s' s₁ s₂ : State} {c n : ℕ} {l rest own dir : List ℕ} {data : ℕ → UInt8}
  {file : FatFile}

/-! ## What is left alone -/

/-- The clusters that were in use are as they were, those in `own` apart. -/
structure KeepsOthers (g : Bpb) (s s' : State) (own : List ℕ) : Prop where
  entry : ∀ x, ValidCluster g x → x ∉ own → fatEntry g s.disk x ≠ 0 →
    fatEntry g s'.disk x = fatEntry g s.disk x
  bytes : ∀ x j, ValidCluster g x → x ∉ own → fatEntry g s.disk x ≠ 0 → j < g.clusterSize →
    clusterByte g s'.disk x j = clusterByte g s.disk x j

namespace KeepsOthers

theorem refl (g : Bpb) (s : State) (own : List ℕ) : KeepsOthers g s s own :=
  ⟨fun _ _ _ _ => rfl, fun _ _ _ _ _ _ => rfl⟩

/-- Clusters that were free at first may be changed as well. -/
theorem trans {own' : List ℕ} (h : KeepsOthers g s s₁ own) (h' : KeepsOthers g s₁ s₂ own')
    (hown : ∀ x ∈ own', x ∈ own ∨ fatEntry g s.disk x = 0) : KeepsOthers g s s₂ own := by
  have hnot : ∀ x, x ∉ own → fatEntry g s.disk x ≠ 0 → x ∉ own' :=
    fun x hx hused hmem => (hown x hmem).elim hx hused
  constructor
  · intro x hx hxown hused
    have hsame := h.entry x hx hxown hused
    rw [h'.entry x hx (hnot x hxown hused) (by rwa [hsame]), hsame]
  · intro x j hx hxown hused hj
    have hsame := h.entry x hx hxown hused
    rw [h'.bytes x j hx (hnot x hxown hused) (by rwa [hsame]) hj, h.bytes x j hx hxown hused hj]

theorem mono {own' : List ℕ} (h : KeepsOthers g s s' own) (hown : ∀ x ∈ own, x ∈ own') :
    KeepsOthers g s s' own' :=
  ⟨fun x hx hxown => h.entry x hx fun hmem => hxown (hown x hmem),
    fun x j hx hxown => h.bytes x j hx fun hmem => hxown (hown x hmem)⟩

end KeepsOthers

theorem Relinked.keepsOthers {v : ℕ} {new : List ℕ} (h : Relinked g s s' c v new)
    (hfree : ∀ x ∈ new, fatEntry g s.disk x = 0) : KeepsOthers g s s' [c] := by
  constructor
  · intro x hx hxown _
    rw [h.entry x hx.lt_limit, if_neg (fun heq => hxown (List.mem_singleton.mpr heq))]
  · intro x j hx _ hused hj
    rw [h.bytes x j hx hj, if_neg (fun hmem => hused (hfree x hmem))]

theorem Written.keepsOthers {p a : ℕ} {new : List ℕ} (h : Written g data p n a s s' c l new) :
    KeepsOthers g s s' l := by
  have hnew : ∀ x, fatEntry g s.disk x ≠ 0 → x ∉ new := fun x hused hmem => hused (h.fresh x hmem)
  constructor
  · intro x hx hxown hused
    refine h.entry x hx.lt_limit (hnew x hused) fun hlast => ?_
    exact hxown (List.mem_of_getLast? hlast)
  · intro x j hx hxown hused hj
    exact h.other x j hx hxown (hnew x hused) hj

theorem FileChain.keep {first : ℕ} (hg : Geometry g) (h : FileChain g s.disk first l)
    (hkeep : KeepsOthers g s s' own) (hdisjoint : ∀ x ∈ l, x ∉ own) :
    FileChain g s'.disk first l :=
  h.congr fun x hx => hkeep.entry x (h.valid x hx) (hdisjoint x hx) (h.entry_ne_zero hg x hx)

/-! ## The loop of `fat_fwrite` -/

theorem storePart_taken {p offset total : ℕ} :
    (storePart g data p n offset c total s).taken = s.taken := by
  unfold storePart
  split
  · exact State.write_taken _ _ _
  · rfl

theorem storePart_keepsOthers (hg : Geometry g) (hc : ValidCluster g c) {p offset total : ℕ}
    (hlt : offset < 2 ^ 32) (hn : n < 2 ^ 32) (ht : Paced g n total) :
    KeepsOthers g s (storePart g data p n offset c total s) [c] := by
  obtain ⟨hfront, hbytes⟩ := storePart_valid (s := s) hg hc data (p := p) hlt hn ht
  constructor
  · intro x hx _ _
    exact hfront.fatEntry hg (hx.inFats hg)
  · intro x j hx hxown _ hj
    exact hbytes x j hx (fun heq => hxown (List.mem_singleton.mpr heq)) hj

/-- At the end of its chain a file is marked or gets a free cluster. -/
theorem advanceChain_keepsOthers (hg : Geometry g) (hfat : 3 * g.secPerClus ≤ g.fatSz32)
    {p offset : ℕ} (hc : ValidCluster g c) (hopen : OpenEnd (fatEntry g s.disk c))
    {r : Option ℕ × State} (h : advanceChain g p n offset c (fatEntry g s.disk c) s = some r)
    (hvalid : ∀ t ∈ r.2.taken, ValidCluster g t) :
    KeepsOthers g s r.2 [c] ∧
      (r.1 = none ∨ r.1 = some 0x0FFFFFFF ∨
        ∃ f, r.1 = some f ∧ ValidCluster g f ∧ fatEntry g s.disk f = 0 ∧
          fatEntry g r.2.disk f = 0) := by
  have hlt := hc.lt hg
  unfold OpenEnd EndMark at hopen
  unfold advanceChain at h
  rw [if_pos hopen] at h
  split at h
  · split at h
    · cases h
      exact ⟨.refl g s _, .inr (.inl rfl)⟩
    · cases h
      exact ⟨(relinked_mark hg hfat hc).keepsOthers fun x hx => absurd hx List.not_mem_nil,
        .inr (.inl rfl)⟩
  · rw [u32_of_lt (show c + 1 < 2 ^ 32 by omega)] at h
    obtain ⟨⟨free, s₁⟩, hfind, hrest⟩ := Option.bind_eq_some_iff.mp h
    have hlimit := hg.clusterLimit_lt
    have hclt := hc.lt_limit
    have hspec := findFreeCluster_spec hg (.inl rfl) (by omega) hfind
    obtain ⟨hsame, ⟨hnone, -⟩ | ⟨f, hf, hcons, hlt, -, hzero⟩⟩ := hspec
    · have hdisk : s₁.disk = s.disk := hsame
      dsimp only at hnone hrest
      rw [hnone] at hrest
      cases hrest
      exact ⟨⟨fun _ _ _ _ => by rw [hdisk], fun _ _ _ _ _ _ => by rw [hdisk]⟩, .inl rfl⟩
    · have hdisk : s₁.disk = s.disk := hsame
      have htaken : s₁.taken = f :: s.taken := hcons
      have hfree : fatEntry g s.disk f = 0 := hzero
      dsimp only at hf hrest
      rw [hf] at hrest
      cases hrest
      dsimp only at hvalid ⊢
      rw [fatClearCluster_taken, fatWriteFatEntry_taken, htaken] at hvalid
      have hfvalid := hvalid f List.mem_cons_self
      have hrel := relinked_link hg hc hfvalid hdisk htaken
      refine ⟨hrel.keepsOthers ?_, .inr (.inr ⟨f, rfl, hfvalid, hfree, ?_⟩)⟩
      · intro x hx
        rw [List.mem_singleton.mp hx]
        exact hfree
      · exact (hrel.entry f hfvalid.lt_limit).trans ((if_neg (by omega)).trans hfree)

/-- Whether it succeeds or not, the loop changes the chain and free clusters only. -/
theorem fwriteLoop_keepsOthers (hg : Geometry g) (hfat : 3 * g.secPerClus ≤ g.fatSz32)
    (hn : n < 2 ^ 32) :
    ∀ {rounds c offset total : ℕ} {rest : List ℕ} {s : State} {r : Option ℕ × State},
      Growing g s c rest → Paced g n total →
        fwriteLoop g data n file rounds c offset total s = some r →
          (∀ t ∈ r.2.taken, ValidCluster g t) → KeepsOthers g s r.2 rest
  | rounds + 1, c, offset, total, rest, s, r, h, hpace, hloop, hvalid => by
      have hc := h.valid c h.chain.head_mem
      have hpace' := hpace.partTotal hg.clusterSize_lt (p := file.cursor)
        (u32_lt (offset + g.clusterSize)) hn
      have hstored : ∀ s₁ : State, KeepsOthers g s₁ (storePart g data file.cursor n
          (u32 (offset + g.clusterSize)) c total s₁) [c] :=
        fun s₁ => storePart_keepsOthers hg hc (u32_lt _) hn hpace
      rw [fwriteLoop_round hc.ge_two (h.not_bad hg)] at hloop
      obtain ⟨⟨next, s₁⟩, hadvance, hrest⟩ := Option.bind_eq_some_iff.mp hloop
      rcases h.cases with ⟨rfl, hopen⟩ | ⟨rest', rfl, hmem, hnext, hgrow⟩
      · -- the clusters taken in this round are among those taken in the end
        have hvalid₁ : ∀ t ∈ s₁.taken, ValidCluster g t := by
          intro t ht
          apply hvalid
          cases next with
          | none =>
              cases hrest
              exact ht
          | some v =>
              dsimp only at hrest
              split at hrest
              · cases hrest
                dsimp only
                rwa [storePart_taken]
              · apply fwriteLoop_taken hrest
                rwa [storePart_taken]
        obtain ⟨hkeep, hnone | hmark | ⟨f, hf, hfvalid, hfree, hfree'⟩⟩ :=
          advanceChain_keepsOthers hg hfat hc hopen hadvance hvalid₁
        · dsimp only at hnone hkeep hrest
          rw [hnone] at hrest
          cases hrest
          exact hkeep
        · have hlast : isLast 0x0FFFFFFF = true := isLast_iff.mpr (.inl ⟨by decide, by decide⟩)
          dsimp only at hmark hkeep hrest
          rw [hmark] at hrest
          dsimp only at hrest
          rw [if_pos hlast] at hrest
          cases hrest
          exact hkeep.trans (hstored s₁) fun x hx => .inl hx
        · dsimp only at hf hkeep hfree' hrest
          rw [hf] at hrest
          dsimp only at hrest
          rw [if_neg (hfvalid.not_isLast hg), (hfvalid.not_special hg).2.2.2] at hrest
          have hfront := (storePart_valid (s := s₁) hg hc data (p := file.cursor)
            (u32_lt (offset + g.clusterSize)) hn hpace).1
          have hgrow : Growing g (storePart g data file.cursor n (u32 (offset + g.clusterSize)) c
              total s₁) f [f] := by
            refine ⟨.last ?_, ?_⟩
            · rw [hfront.fatEntry hg (hfvalid.inFats hg), hfree']
              exact .inl rfl
            · intro x hx
              rwa [List.mem_singleton.mp hx]
          have hrec := fwriteLoop_keepsOthers hg hfat hn hgrow hpace' hrest hvalid
          refine (hkeep.trans (hstored s₁) fun x hx => .inl hx).trans hrec ?_
          intro x hx
          rw [List.mem_singleton.mp hx]
          exact .inr hfree
      · rw [advanceChain_link hg hnext] at hadvance
        cases hadvance
        dsimp only at hrest
        rw [if_neg (hnext.not_isLast hg), (hnext.not_special hg).2.2.2] at hrest
        have hfront := (storePart_valid (s := s) hg hc data (p := file.cursor)
          (u32_lt (offset + g.clusterSize)) hn hpace).1
        have hgrow' := hgrow.congr (storePart g data file.cursor n (u32 (offset + g.clusterSize)) c
          total s) fun x hx => hfront.fatEntry hg ((hgrow.valid x hx).inFats hg)
        have hrec := fwriteLoop_keepsOthers hg hfat hn hgrow' hpace' hrest hvalid
        refine ((hstored s).mono ?_).trans hrec fun x hx => .inl (List.mem_cons_of_mem _ hx)
        intro x hx
        rw [List.mem_singleton.mp hx]
        exact List.mem_cons_self

/-! ## Whole operations -/

theorem paced_zero (g : Bpb) (n : ℕ) : Paced g n 0 := ⟨by decide, .inl (Nat.zero_le n)⟩

/-- The entry goes into the directory, and nowhere else. -/
theorem fatUpdateEntry_keepsOthers (hg : Geometry g) (hfat : 3 * g.secPerClus ≤ g.fatSz32)
    (file : FatFile)
    (hparent : FileChain g s.disk file.firstParentCluster dir)
    (hparent_lt : file.firstParentCluster < 2 ^ 16)
    (hinside : file.entryPosition + 32 ≤ dir.length * g.clusterSize) :
    ∃ s', fatUpdateEntry g file s = some s' ∧
      Written g file.fatDir.buffer file.entryPosition 32 0 s s' file.firstParentCluster dir [] ∧
      entryAt g s'.disk dir file.entryPosition = file.fatDir ∧ KeepsOthers g s s' dir := by
  have hfirst := (hparent.valid _ hparent.chain.head_mem).ge_two
  obtain ⟨s', hupdate, hwritten⟩ := updateEntryWith_spec hg hfat
    (updateEntryWith g (fwriteNested g 1)) file hfirst hparent_lt hparent hinside
  exact ⟨s', hupdate, hwritten, hwritten.entryAt_self hinside, hwritten.keepsOthers⟩

/-- A write through a handle that knows its clusters, successful or not, changes the
file, its entry, and clusters that were free. -/
theorem fatFwrite_keepsOthers (hg : Geometry g) (hfat : 3 * g.secPerClus ≤ g.fatSz32)
    (h : FileChain g s.disk file.fatDir.dirFstClusLO l)
    (hparent : FileChain g s.disk file.firstParentCluster dir)
    (hparent_lt : file.firstParentCluster < 2 ^ 16)
    (hinside : file.entryPosition + 32 ≤ dir.length * g.clusterSize)
    (hapart : ∀ x ∈ dir, x ∉ l) (hn : n < 2 ^ 32) {r : Bool × FatFile × State}
    (hw : fatFwrite g data n file s = some r) (hvalid : ∀ t ∈ r.2.2.taken, ValidCluster g t) :
    KeepsOthers g s r.2.2 (l ++ dir) := by
  rw [fatFwrite, fwriteNested] at hw
  obtain ⟨⟨written, s₁⟩, hloop, hrest⟩ := Option.bind_eq_some_iff.mp hw
  have hkeep : (∀ t ∈ s₁.taken, ValidCluster g t) → KeepsOthers g s s₁ l := fun hvalid₁ =>
    fwriteLoop_keepsOthers hg hfat hn (h.growing hg) (paced_zero g n) hloop hvalid₁
  have hleft : ∀ x ∈ l, x ∈ l ++ dir := fun _ => List.mem_append_left dir
  cases written with
  | none =>
      cases hrest
      exact (hkeep hvalid).mono hleft
  | some total =>
      dsimp only at hrest
      split at hrest
      · obtain ⟨s₂, hupdate, hrest⟩ := Option.bind_eq_some_iff.mp hrest
        cases hrest
        have hvalid₁ : ∀ t ∈ s₁.taken, ValidCluster g t := fun t ht =>
          hvalid t (updateEntryWith_taken (fwriteNested_taken 1) hupdate t ht)
        have hparent' := hparent.keep hg (hkeep hvalid₁) hapart
        have hfirst := (hparent.valid _ hparent.chain.head_mem).ge_two
        obtain ⟨s', hupdate', hentry⟩ := updateEntryWith_spec hg hfat
          (updateEntryWith g (fwriteNested g 0))
          { file with
            cursor := u32 (file.cursor + total)
            fatDir := file.fatDir.setFileSize (u32 (file.cursor + total)) }
          hfirst hparent_lt hparent' hinside
        obtain rfl : s' = s₂ := Option.some_inj.mp (hupdate'.symm.trans hupdate)
        refine ((hkeep hvalid₁).mono hleft).trans hentry.keepsOthers fun x hx => .inl ?_
        exact List.mem_append_right l hx
      · cases hrest
        exact (hkeep hvalid).mono hleft

/-! ## Freeing a chain -/

/-- The clusters of `l` were freed. -/
structure Freed (g : Bpb) (s s' : State) (l : List ℕ) : Prop where
  entry : ∀ x, x < clusterLimit g →
    fatEntry g s'.disk x = if x ∈ l then 0 else fatEntry g s.disk x
  bytes : ∀ x j, ValidCluster g x → clusterByte g s'.disk x j = clusterByte g s.disk x j
  taken : s'.taken = s.taken

theorem Freed.keepsOthers (h : Freed g s s' l) : KeepsOthers g s s' l :=
  ⟨fun x hx hxown _ => (h.entry x hx.lt_limit).trans (if_neg hxown),
    fun x j hx _ _ _ => h.bytes x j hx⟩

theorem freed_head (hg : Geometry g) (hc : ValidCluster g c) :
    Freed g s (fatWriteFatEntry g s c 0) [c] where
  entry x hx := by
    rw [fatEntry_fatWriteFatEntry hg hc.lt_limit hx (by decide)]
    exact if_congr List.mem_singleton.symm rfl rfl
  bytes x j hx := clusterByte_fatWriteFatEntry hg hc.lt_limit hx
  taken := fatWriteFatEntry_taken _ _ _ _

theorem Freed.trans {l' : List ℕ} (h : Freed g s s₁ l) (h' : Freed g s₁ s₂ l') :
    Freed g s s₂ (l ++ l') where
  entry x hx := by
    rw [h'.entry x hx, h.entry x hx]
    by_cases hmem : x ∈ l
    · rw [if_pos hmem, ite_self, if_pos (List.mem_append_left l' hmem)]
    · rw [if_neg hmem]
      exact if_congr (List.mem_append.trans (or_iff_right hmem)).symm rfl rfl
  bytes x j hx := (h'.bytes x j hx).trans (h.bytes x j hx)
  taken := h'.taken.trans h.taken

/-- The loop frees the chain of a file from its first cluster to its last. -/
theorem removeChainLoop_spec (hg : Geometry g) :
    ∀ {rounds first : ℕ} {l : List ℕ} {s : State}, FileChain g s.disk first l →
      l.length ≤ rounds → ∃ s', removeChainLoop g rounds first s = some s' ∧ Freed g s s' l
  | 0, _, l, _, h, hrounds =>
      absurd (List.length_eq_zero_iff.mp (Nat.le_zero.mp hrounds)) h.chain.ne_nil
  | rounds + 1, first, l, s, h, hrounds => by
      have hfirst := h.valid first h.chain.head_mem
      have hread : fatReadFatEntry g s first false = (fatEntry g s.disk first, s) := rfl
      have hused := h.entry_ne_zero hg first h.chain.head_mem
      have hnodup := h.chain.nodup
      rw [removeChainLoop, if_neg (not_lt.mpr hfirst.ge_two), hread]
      dsimp only
      rcases h.entry_cases with ⟨rfl, hmark⟩ | ⟨rest, rfl, hrest, hnext⟩
      · rw [if_neg hmark.not_special.2.1, if_neg hused, if_pos (isLast_iff.mpr (.inl hmark))]
        exact ⟨_, rfl, freed_head hg hfirst⟩
      · rw [if_neg (hnext.not_special hg).2.1, if_neg hused, if_neg (hnext.not_isLast hg),
          (hnext.not_special hg).2.2.2]
        have hfreed := freed_head (s := s) hg hfirst
        have hrest' : FileChain g (fatWriteFatEntry g s first 0).disk (fatEntry g s.disk first)
            rest := by
          apply hrest.congr
          intro x hx
          rw [hfreed.entry x (hrest.valid x hx).lt_limit, if_neg]
          rintro hmem
          rw [List.mem_singleton.mp hmem] at hx
          exact (List.nodup_cons.mp hnodup).1 hx
        obtain ⟨s', hloop, hfreed'⟩ := removeChainLoop_spec hg hrest'
          (Nat.le_of_succ_le_succ hrounds)
        exact ⟨s', hloop, hfreed.trans hfreed'⟩

theorem fatRemoveFatChain_spec (hg : Geometry g) (file : FatFile)
    (h : FileChain g s.disk file.fatDir.dirFstClusLO l) :
    ∃ s', fatRemoveFatChain g file s = some s' ∧ Freed g s s' l :=
  removeChainLoop_spec hg h (h.length_lt hg).le

/-! ## Truncation -/

/-- The file with the chain `l` was truncated: its first cluster is its last one, its
other clusters are free, and no byte outside the directory has changed. -/
structure Truncated (g : Bpb) (s s' : State) (file : FatFile) (l dir : List ℕ) : Prop where
  entry : ∀ x, ValidCluster g x → x ∉ dir → fatEntry g s'.disk x =
    if x = file.fatDir.dirFstClusLO then 0x0FFFFFFF
    else if x ∈ l then 0 else fatEntry g s.disk x
  bytes : ∀ x j, ValidCluster g x → x ∉ dir → j < g.clusterSize →
    clusterByte g s'.disk x j = clusterByte g s.disk x j
  parent : FileChain g s'.disk file.firstParentCluster dir
  stored : entryAt g s'.disk dir file.entryPosition = file.fatDir.setFileSize 0
  taken : s'.taken = s.taken

theorem Truncated.keepsOthers (h : Truncated g s s' file l dir)
    (hfirst : file.fatDir.dirFstClusLO ∈ l) : KeepsOthers g s s' (l ++ dir) := by
  constructor
  · intro x hx hxown _
    obtain ⟨hxl, hxdir⟩ := not_or.mp (mt List.mem_append.mpr hxown)
    have hne : x ≠ file.fatDir.dirFstClusLO := fun heq => hxl (heq ▸ hfirst)
    rw [h.entry x hx hxdir, if_neg hne, if_neg hxl]
  · intro x j hx hxown _ hj
    exact h.bytes x j hx (fun hmem => hxown (List.mem_append_right l hmem)) hj

theorem truncateFile_spec (hg : Geometry g) (hfat : 3 * g.secPerClus ≤ g.fatSz32)
    (h : FileChain g s.disk file.fatDir.dirFstClusLO l)
    (hparent : FileChain g s.disk file.firstParentCluster dir)
    (hparent_lt : file.firstParentCluster < 2 ^ 16)
    (hinside : file.entryPosition + 32 ≤ dir.length * g.clusterSize)
    (hapart : ∀ x ∈ dir, x ∉ l) :
    ∃ s', truncateFile g file s = some ({ file with fatDir := file.fatDir.setFileSize 0 }, s') ∧
      Truncated g s s' file l dir := by
  have hfirst := h.valid _ h.chain.head_mem
  have hlow : (file.fatDir.setFileSize 0).dirFstClusLO = file.fatDir.dirFstClusLO :=
    DirEntry.dirFstClusLO_setFileSize _ _
  obtain ⟨s₁, hupdate, hwritten, -, hkeep⟩ := fatUpdateEntry_keepsOthers hg hfat
    { file with fatDir := file.fatDir.setFileSize 0 } hparent hparent_lt hinside
  have h₁ : FileChain g s₁.disk (file.fatDir.setFileSize 0).dirFstClusLO l := by
    rw [hlow]
    exact h.keep hg hkeep fun x hx hmem => hapart x hmem hx
  obtain ⟨s₂, hremove, hfreed⟩ := fatRemoveFatChain_spec hg
    { file with fatDir := file.fatDir.setFileSize 0 } h₁
  refine ⟨fatWriteFatEntry g s₂ file.fatDir.dirFstClusLO 0x0FFFFFFF, ?_, ?_⟩
  · unfold truncateFile
    dsimp only
    rw [hupdate, Option.bind_eq_bind, Option.bind_some, hremove, Option.bind_some, hlow]
    rfl
  have hentry : ∀ x, x < clusterLimit g →
      fatEntry g (fatWriteFatEntry g s₂ file.fatDir.dirFstClusLO 0x0FFFFFFF).disk x =
        if x = file.fatDir.dirFstClusLO then 0x0FFFFFFF
        else if x ∈ l then 0 else fatEntry g s₁.disk x := by
    intro x hx
    rw [fatEntry_fatWriteFatEntry hg hfirst.lt_limit hx (by decide), hfreed.entry x hx]
  have hbytes : ∀ x j, ValidCluster g x →
      clusterByte g (fatWriteFatEntry g s₂ file.fatDir.dirFstClusLO 0x0FFFFFFF).disk x j =
        clusterByte g s₁.disk x j := by
    intro x j hx
    rw [clusterByte_fatWriteFatEntry hg hfirst.lt_limit hx, hfreed.bytes x j hx]
  have hdir : ∀ x ∈ dir, x ≠ file.fatDir.dirFstClusLO := by
    rintro x hx rfl
    exact hapart _ hx h.chain.head_mem
  have hdirChain : FileChain g s₁.disk file.firstParentCluster dir := by
    rw [← List.append_nil dir]
    exact hwritten.chain
  constructor
  · intro x hx hxdir
    rw [hentry x hx.lt_limit,
      hwritten.entry x hx.lt_limit List.not_mem_nil fun hlast => hxdir (List.mem_of_getLast? hlast)]
  · intro x j hx hxdir hj
    rw [hbytes x j hx, hwritten.other x j hx hxdir List.not_mem_nil hj]
  · apply hdirChain.congr
    intro x hx
    rw [hentry x (hparent.valid x hx).lt_limit, if_neg (hdir x hx), if_neg (hapart x hx)]
  · rw [entryAt_congr hinside]
    · exact hwritten.entryAt_self hinside
    · intro j hj
      apply chainByte_congr hg.clusterSize_pos _ hj
      exact fun x hx k _ => hbytes x k (hparent.valid x hx)
  · rw [fatWriteFatEntry_taken, hfreed.taken, hwritten.taken]
    rfl

end Neos.Fat
