import Neos.Fat.Full

/-!
# Walks along the FAT

`fat_fread`, `fat_file_cluster_count`, `fat_fwrite` and `fat_remove_fat_chain`
follow the FAT from the first cluster of a file, wherever its entries lead.
Nothing in the first three notices that a walk came to a cluster before;
`fat_remove_fat_chain` frees each entry behind it and so cannot come back.
-/

namespace Neos.Fat

open ByteRange Relation

/-- The loop of `fat_remove_fat_chain`. -/
def removeChainLoop (g : Bpb) : ℕ → ℕ → State → Option State
  | 0, _, _ => none
  | rounds + 1, cluster, s =>
      if cluster < 2 then some s
      else
        let (nextCluster, s) := fatReadFatEntry g s cluster false
        if nextCluster = badCluster then some s
        else if nextCluster = 0 then some s
        else
          let s := fatWriteFatEntry g s cluster 0
          if isLast nextCluster then some s
          else removeChainLoop g rounds (nextCluster % 2 ^ 28) s

/-- `fat_remove_fat_chain`. -/
def fatRemoveFatChain (g : Bpb) (file : FatFile) (s : State) : Option State :=
  removeChainLoop g loopBound file.fatDir.dirFstClusLO s

/-! ## Where a walk leads -/

/-- Where the loops stop: at a number that is no cluster, and at a cluster that is
free, bad, or the last one. -/
def Stops (g : Bpb) (disk : ℕ → UInt8) (c : ℕ) : Prop :=
  c < 2 ∨ fatEntry g disk c = 0 ∨ fatEntry g disk c = badCluster ∨
    isLast (fatEntry g disk c) = true

/-- The number that the loops take next. -/
def follow (g : Bpb) (disk : ℕ → UInt8) (c : ℕ) : ℕ := fatEntry g disk c % 2 ^ 28

/-- The walk from a cluster comes to an end. -/
def ChainEnds (g : Bpb) (disk : ℕ → UInt8) (c : ℕ) : Prop := Ends (follow g disk) (Stops g disk) c

/-- The walk goes on from one number to another. -/
def Follows (g : Bpb) (disk : ℕ → UInt8) (c c' : ℕ) : Prop :=
  ¬ Stops g disk c ∧ c' = follow g disk c

/-- The walk from `first` comes to a number. -/
def Reaches (g : Bpb) (disk : ℕ → UInt8) (first : ℕ) : ℕ → Prop :=
  ReflTransGen (Follows g disk) first

section

variable {g : Bpb} {s s' : State} {disk disk' : ℕ → UInt8} {c f first n rounds : ℕ}
  {data : ℕ → UInt8} {file : FatFile}

theorem follow_lt (g : Bpb) (disk : ℕ → UInt8) (c : ℕ) : follow g disk c < 2 ^ 28 :=
  Nat.mod_lt _ (by decide)

/-- The rounds given to a loop are enough for every walk that comes to an end. -/
theorem chainEnds_iff (hc : c < 2 ^ 28) :
    ChainEnds g disk c ↔ StopsWithin (follow g disk) (Stops g disk) loopBound c :=
  ends_iff_stopsWithin (follow_lt g disk) hc (by decide)

theorem not_stops (htwo : ¬ c < 2) (hzero : fatEntry g disk c ≠ 0)
    (hbad : fatEntry g disk c ≠ badCluster) (hlast : ¬ isLast (fatEntry g disk c) = true) :
    ¬ Stops g disk c := by
  rintro (hstop | hstop | hstop | hstop)
  · exact htwo hstop
  · exact hzero hstop
  · exact hbad hstop
  · exact hlast hstop

/-! ## Reading and counting -/

/-- `fat_fread` goes on as long as the walk does. -/
theorem freadLoop_isSome (hg : Geometry g) :
    ∀ {rounds c offset total : ℕ} {out : ℕ → UInt8} {s : State}, CacheFresh s → c < 2 ^ 28 →
      ((freadLoop g file n rounds c offset total out s).isSome ↔
        StopsWithin (follow g s.disk) (Stops g s.disk) rounds c)
  | 0, _, _, _, _, _, _, _ => by
      rw [freadLoop, StopsWithin]
      exact iff_of_false Bool.false_ne_true id
  | rounds + 1, c, offset, total, out, s, hs, hc => by
      obtain ⟨s₁, hread, hlooked⟩ := fatReadFatEntry_cached hg hs hc
      rw [freadLoop, StopsWithin]
      split
      · next htwo => exact iff_of_true rfl (.inl (.inl htwo))
      next htwo =>
      rw [hread]
      dsimp only
      split
      · next hzero => exact iff_of_true rfl (.inl (.inr (.inl hzero)))
      next hzero =>
      split
      · next hbad => exact iff_of_true rfl (.inl (.inr (.inr (.inl hbad))))
      next hbad =>
      split
      · next hlast => exact iff_of_true rfl (.inl (.inr (.inr (.inr hlast))))
      next hlast =>
      refine (freadLoop_isSome hg hlooked.fresh (follow_lt g s.disk c)).trans ?_
      rw [hlooked.disk]
      exact (or_iff_right (not_stops htwo hzero hbad hlast)).symm

/-- `fat_file_cluster_count` goes on as long as the walk does. -/
theorem clusterCountLoop_isSome (hg : Geometry g) :
    ∀ {rounds c count : ℕ} {s : State}, CacheFresh s → c < 2 ^ 28 →
      ((clusterCountLoop g rounds c count s).isSome ↔
        StopsWithin (follow g s.disk) (Stops g s.disk) rounds c)
  | 0, _, _, _, _, _ => by
      rw [clusterCountLoop, StopsWithin]
      exact iff_of_false Bool.false_ne_true id
  | rounds + 1, c, count, s, hs, hc => by
      obtain ⟨s₁, hread, hlooked⟩ := fatReadFatEntry_cached hg hs hc
      rw [clusterCountLoop, StopsWithin]
      split
      · next htwo => exact iff_of_true rfl (.inl (.inl htwo))
      next htwo =>
      rw [hread]
      dsimp only
      split
      · next hbad => exact iff_of_true rfl (.inl (.inr (.inr (.inl hbad))))
      next hbad =>
      split
      · next hzero => exact iff_of_true rfl (.inl (.inr (.inl hzero)))
      next hzero =>
      split
      · next hlast => exact iff_of_true rfl (.inl (.inr (.inr (.inr hlast))))
      next hlast =>
      refine (clusterCountLoop_isSome hg hlooked.fresh (follow_lt g s.disk c)).trans ?_
      rw [hlooked.disk]
      exact (or_iff_right (not_stops htwo hzero hbad hlast)).symm

theorem fatFread_isSome (hg : Geometry g) {out : ℕ → UInt8} :
    (fatFread g out n file s).isSome ↔ ChainEnds g s.disk file.fatDir.dirFstClusLO := by
  have hlt : file.fatDir.dirFstClusLO < 2 ^ 28 := (DirEntry.dirFstClusLO_lt _).trans (by decide)
  have hsome : (fatFread g out n file s).isSome = (freadLoop g file n loopBound
      file.fatDir.dirFstClusLO 0 0 out (fatInvalidateCache s)).isSome := by
    unfold fatFread
    cases freadLoop g file n loopBound file.fatDir.dirFstClusLO 0 0 out (fatInvalidateCache s) <;> rfl
  rw [chainEnds_iff hlt, hsome]
  exact freadLoop_isSome hg (.inl rfl) hlt

theorem fatFileClusterCount_isSome (hg : Geometry g) :
    (fatFileClusterCount g file s).isSome ↔ ChainEnds g s.disk file.fatDir.dirFstClusLO := by
  have hlt : file.fatDir.dirFstClusLO < 2 ^ 28 := (DirEntry.dirFstClusLO_lt _).trans (by decide)
  rw [chainEnds_iff hlt]
  exact clusterCountLoop_isSome hg (.inl rfl) hlt

/-! ## Freeing -/

theorem fatEntry_eq_zero_iff :
    fatEntry g disk c = 0 ↔ ∀ i < 4, disk (g.fatEntryOffset c + i) = 0 := by
  rw [fatEntry, leValue_eq_zero_iff, readBytes, List.forall_mem_map]
  simp only [List.mem_range]

/-- Freeing an entry makes no other entry used, wherever the copies are. -/
theorem fatEntry_freed (g : Bpb) (s : State) {c x : ℕ} (h : x = c ∨ fatEntry g s.disk x = 0) :
    fatEntry g (fatWriteFatEntry g s c 0).disk x = 0 := by
  rw [fatEntry_eq_zero_iff]
  intro i hi
  unfold fatWriteFatEntry State.write
  dsimp only
  rw [leBytes_zero, writeBytes_zeros, writeBytes_zeros]
  rcases h with rfl | h
  · rw [if_pos (c := g.fatEntryOffset x ≤ _ ∧ _) (by omega), ite_self]
  · rw [fatEntry_eq_zero_iff.mp h i hi, ite_self, ite_self]

/-- The clusters whose FAT entry is not zero. -/
def usedEntries (g : Bpb) (disk : ℕ → UInt8) : Finset ℕ :=
  (Finset.range (2 ^ 28)).filter fun c => fatEntry g disk c ≠ 0

/-- A round frees an entry that was used, so there are no more rounds than used
entries. -/
theorem removeChainLoop_isSome (hc : c < 2 ^ 28) (hcard : (usedEntries g s.disk).card < rounds) :
    (removeChainLoop g rounds c s).isSome := by
  induction rounds generalizing c s with
  | zero => exact absurd hcard (Nat.not_lt_zero _)
  | succ rounds ih =>
      have hread : fatReadFatEntry g s c false = (fatEntry g s.disk c, s) := rfl
      rw [removeChainLoop, hread]
      dsimp only
      split
      · rfl
      split
      · rfl
      split
      · rfl
      next hused =>
      split
      · rfl
      apply ih (follow_lt g s.disk c)
      have hmem : c ∈ usedEntries g s.disk :=
        Finset.mem_filter.mpr ⟨Finset.mem_range.mpr hc, hused⟩
      have hsubset : usedEntries g (fatWriteFatEntry g s c 0).disk ⊆
          (usedEntries g s.disk).erase c := by
        intro x hx
        obtain ⟨hlt, hne⟩ := Finset.mem_filter.mp hx
        refine Finset.mem_erase.mpr ⟨?_, Finset.mem_filter.mpr ⟨hlt, ?_⟩⟩
        · exact fun heq => hne (fatEntry_freed g s (.inl heq))
        · exact fun hzero => hne (fatEntry_freed g s (.inr hzero))
      have hlt := Finset.card_lt_card (Finset.erase_ssubset hmem)
      exact lt_of_le_of_lt (Finset.card_le_card hsubset) (by omega)

theorem fatRemoveFatChain_isSome : (fatRemoveFatChain g file s).isSome := by
  apply removeChainLoop_isSome ((DirEntry.dirFstClusLO_lt _).trans (by decide))
  have hcard : (usedEntries g s.disk).card ≤ 2 ^ 28 := by
    refine (Finset.card_filter_le _ _).trans ?_
    rw [Finset.card_range]
  exact lt_of_le_of_lt hcard (by decide)

/-! ## Writing -/

/-- A round on a cluster that is followed by another one. -/
theorem fwriteLoop_follow {offset total : ℕ} (hgo : ¬ Stops g s.disk c) :
    fwriteLoop g data n file (rounds + 1) c offset total s =
      fwriteLoop g data n file rounds (follow g s.disk c) (u32 (offset + g.clusterSize))
        (partTotal g file.cursor n (u32 (offset + g.clusterSize)) total)
        (storePart g data file.cursor n (u32 (offset + g.clusterSize)) c total s) := by
  obtain ⟨htwo, hrest⟩ := not_or.mp hgo
  obtain ⟨hzero, hrest⟩ := not_or.mp hrest
  obtain ⟨hbad, hlast⟩ := not_or.mp hrest
  have hopen : ¬ OpenEnd (fatEntry g s.disk c) := by
    rintro (h | h)
    · exact hzero h
    · exact hlast (isLast_iff.mpr (.inl h))
  rw [fwriteLoop_round (not_lt.mp htwo) hbad, advanceChain_pass hopen, Option.bind_some]
  dsimp only
  rw [if_neg hlast]
  rfl

/-- Where the walk stops, but not at the end of a chain that can be extended, the
loop returns. -/
theorem fwriteLoop_stops {offset total : ℕ} (hstop : Stops g s.disk c)
    (hopen : ¬ (2 ≤ c ∧ OpenEnd (fatEntry g s.disk c))) :
    (fwriteLoop g data n file (rounds + 1) c offset total s).isSome := by
  by_cases htwo : c < 2
  · rw [fwriteLoop, if_pos htwo]
    rfl
  by_cases hbad : fatEntry g s.disk c = badCluster
  · have hread : fatReadFatEntry g s c false = (fatEntry g s.disk c, s) := rfl
    rw [fwriteLoop, if_neg htwo, hread]
    dsimp only
    rw [if_pos hbad]
    rfl
  have hnot : ¬ OpenEnd (fatEntry g s.disk c) := fun h => hopen ⟨not_lt.mp htwo, h⟩
  have hlast : isLast (fatEntry g s.disk c) = true := by
    rcases hstop with h | h | h | h
    · exact absurd h htwo
    · exact absurd (.inl h) hnot
    · exact absurd h hbad
    · exact h
  rw [fwriteLoop_round (not_lt.mp htwo) hbad, advanceChain_pass hnot, Option.bind_some]
  dsimp only
  rw [if_pos hlast]
  rfl

/-- The handling of an entry returns. -/
theorem advanceChain_isSome (hg : Geometry g) {p offset v : ℕ} (hc : c + 1 < 2 ^ 24) :
    (advanceChain g p n offset c v s).isSome := by
  have hstart : (Allocation.extend c).start < 2 ^ 24 := by
    rw [Allocation.start, u32_of_lt (by omega)]
    exact hc
  obtain ⟨⟨free, s₁⟩, hfind⟩ := Option.isSome_iff_exists.mp (hg.search_isSome (s := s) hstart)
  have hfind' : findFreeCluster g loopBound (u32 (c + 1)) (fatInvalidateCache s) =
      some (free, s₁) := hfind
  unfold advanceChain
  rw [hfind']
  split
  · split
    · split <;> rfl
    · cases free <;> rfl
  · rfl

/-- The entries that the bound of a search admits are in the first FAT copy. -/
def FirstCopyHolds (g : Bpb) : Prop := g.diskSize ≤ 128 * g.fatSz32 * g.secPerClus

/-- In front of a wall a chain is extended by ever larger numbers, so the loop
returns. -/
theorem fwriteLoop_open_isSome {w : ℕ} (hg : Geometry g) (hn : n < 2 ^ 32)
    (hholds : FirstCopyHolds g) :
    ∀ {rounds c offset total : ℕ} {s : State}, Wall g s.disk w → 2 ≤ c → c < w →
      OpenEnd (fatEntry g s.disk c) → Paced g n total → w ≤ c + rounds →
        (fwriteLoop g data n file rounds c offset total s).isSome
  | 0, c, _, _, _, _, _, hcw, _, _, hrounds => absurd hrounds (not_le.mpr hcw)
  | rounds + 1, c, offset, total, s, hwall, htwo, hcw, hopen, hpace, hrounds => by
      have hfits := hwall.dataFits
      have hwfats := hwall.inFats
      have hle := Nat.le_mul_of_pos_right w hg.secPerClus_pos
      have hbad : fatEntry g s.disk c ≠ badCluster := by
        unfold OpenEnd EndMark at hopen
        unfold badCluster
        omega
      obtain ⟨⟨next, s₁⟩, hadvance⟩ := Option.isSome_iff_exists.mp
        (advanceChain_isSome (s := s) (n := n) (p := file.cursor)
          (v := fatEntry g s.disk c) hg (c := c) (by omega))
      rw [fwriteLoop_round htwo hbad, hadvance, Option.bind_some]
      rcases advanceChain_open hg (by omega) hopen hadvance with
        hmark | ⟨hfull, -, -⟩ | ⟨f, s₀, hcomes, hfree, hf, hs₀, hs₁⟩
      · have hlast : isLast 0x0FFFFFFF = true := isLast_iff.mpr (.inl ⟨by decide, by decide⟩)
        dsimp only at hmark ⊢
        rw [hmark]
        dsimp only
        rw [if_pos hlast]
        rfl
      · dsimp only at hfull ⊢
        rw [hfull]
        rfl
      · obtain ⟨hcf, hfw⟩ := hwall.lt_of_comes hg hcw hcomes
        have hne : f ≠ w := by
          rintro rfl
          exact hwall.used hfree
        have hfw' : f < w := by omega
        dsimp only at hf hs₁ ⊢
        rw [hf]
        dsimp only
        have hlast : ¬ isLast f = true := by
          rw [isLast_iff, EndMark]
          omega
        rw [if_neg hlast, Nat.mod_eq_of_lt (by omega), hs₁]
        have hlinked := hwall.linked hg htwo hcf hfw' data (p := file.cursor)
          (u32_lt (offset + g.clusterSize)) hn hpace hs₀
        -- the link does not go to the place of the entry in the second copy
        have hcopy : f ≠ c + 128 * g.fatSz32 := by
          obtain ⟨-, hbound, -⟩ := (hg.comes_iff (by omega)).mp hcomes
          rcases hbound with rfl | hbound
          · omega
          · have hlt := Nat.lt_of_mul_lt_mul_right (hbound.trans_le hholds)
            omega
        refine fwriteLoop_open_isSome hg hn hholds (hwall.congr ?_) (by omega) hfw' ?_
          (hpace.partTotal hg.clusterSize_lt (u32_lt _) hn) (by omega)
        · rw [hlinked w hwfats]
          split
          · exact .inr (by omega)
          · exact .inl rfl
        · rw [hlinked f (by omega), if_neg (by omega)]
          exact .inl hfree

/-- The entries that a write has to find as they were: those of the two FAT copies,
and those the walk comes to. -/
def Matters (g : Bpb) (disk : ℕ → UInt8) (first x : ℕ) : Prop :=
  x < 256 * g.fatSz32 ∨ Reaches g disk first x

/-- The data of the linked clusters lies apart from the entries that matter, and a
chain that can be extended ends in front of the wall. -/
structure WritesApart (g : Bpb) (disk : ℕ → UInt8) (first w : ℕ) : Prop where
  fits : ∀ c, Reaches g disk first c → ¬ Stops g disk c →
    g.clusterOffset c + g.clusterSize ≤ 2 ^ 32
  apart : ∀ c x, Reaches g disk first c → ¬ Stops g disk c → Matters g disk first x →
    g.fatEntryOffset x + 4 ≤ g.clusterOffset c ∨
      g.clusterOffset c + g.clusterSize ≤ g.fatEntryOffset x
  lastInFront : ∀ c, Reaches g disk first c → 2 ≤ c → OpenEnd (fatEntry g disk c) → c < w

/-- The entries that matter are as they were. -/
def EntriesKept (g : Bpb) (disk : ℕ → UInt8) (first : ℕ) (disk' : ℕ → UInt8) : Prop :=
  ∀ x, Matters g disk first x → fatEntry g disk' x = fatEntry g disk x

theorem EntriesKept.stops_iff (h : EntriesKept g disk first disk') (hc : Reaches g disk first c) :
    Stops g disk' c ↔ Stops g disk c := by
  unfold Stops
  rw [h c (.inr hc)]

/-- A round on a linked cluster keeps the entries. -/
theorem WritesApart.storePart {w : ℕ} (hg : Geometry g) (hapart : WritesApart g disk first w)
    (hc : Reaches g disk first c) (hgo : ¬ Stops g disk c)
    (hkept : EntriesKept g disk first s.disk) {p offset total : ℕ} (hlt : offset < 2 ^ 32)
    (hn : n < 2 ^ 32) (hpace : Paced g n total) :
    EntriesKept g disk first (Fat.storePart g data p n offset c total s).disk := by
  intro x hx
  obtain ⟨k, bs, hk, heq⟩ := storePart_eq (s := s) hg.clusterSize_lt data (p := p) hlt hn hpace
    (hapart.fits c hc hgo)
  have hdisjoint := hapart.apart c x hc hgo hx
  rw [← hkept x hx, heq]
  apply fatEntry_congr
  intro i hi
  exact writeBytes_outside (by omega)

/-- The loop of `fat_fwrite` returns on a chain that ends. -/
theorem fwriteLoop_isSome_of_stops {w : ℕ} (hg : Geometry g) (hn : n < 2 ^ 32)
    (hholds : FirstCopyHolds g) (hwall : Wall g disk w) (hapart : WritesApart g disk first w) :
    ∀ {k rounds c offset total : ℕ} {s : State}, Reaches g disk first c →
      EntriesKept g disk first s.disk → Paced g n total →
        StopsWithin (follow g disk) (Stops g disk) k c → w + k ≤ rounds →
          (fwriteLoop g data n file rounds c offset total s).isSome
  | k + 1, 0, _, _, _, _, _, _, _, _, hrounds => absurd hrounds (by omega)
  | k + 1, rounds + 1, c, offset, total, s, hc, hkept, hpace, hwithin, hrounds => by
      have hentry := hkept c (.inr hc)
      by_cases hopen : 2 ≤ c ∧ OpenEnd (fatEntry g disk c)
      · obtain ⟨htwo, hend⟩ := hopen
        have hwall' : Wall g s.disk w := hwall.congr (.inl (hkept w (.inl hwall.inFats)))
        exact fwriteLoop_open_isSome hg hn hholds hwall' htwo
          (hapart.lastInFront c hc htwo hend) (hentry ▸ hend) hpace (by omega)
      · by_cases hstop : Stops g disk c
        · exact fwriteLoop_stops ((hkept.stops_iff hc).mpr hstop) (by rwa [hentry])
        · have hnext : Reaches g disk first (follow g disk c) := hc.tail ⟨hstop, rfl⟩
          rw [fwriteLoop_follow (fun h => hstop ((hkept.stops_iff hc).mp h)), follow, hentry]
          exact fwriteLoop_isSome_of_stops hg hn hholds hwall hapart hnext
            (hapart.storePart hg hc hstop hkept (u32_lt _) hn hpace)
            (hpace.partTotal hg.clusterSize_lt (u32_lt _) hn) (hwithin.resolve_left hstop)
            (by omega)

/-- On a chain that does not end it does not return. -/
theorem fwriteLoop_endless {w : ℕ} (hg : Geometry g) (hn : n < 2 ^ 32)
    (hapart : WritesApart g disk first w) :
    ∀ {rounds c offset total : ℕ} {s : State}, Reaches g disk first c →
      EntriesKept g disk first s.disk → Paced g n total → ¬ ChainEnds g disk c →
        fwriteLoop g data n file rounds c offset total s = none
  | 0, _, _, _, _, _, _, _, _ => rfl
  | rounds + 1, c, offset, total, s, hc, hkept, hpace, hendless => by
      have hgo : ¬ Stops g disk c := fun hstop => hendless (.inl hstop)
      have hnext : Reaches g disk first (follow g disk c) := hc.tail ⟨hgo, rfl⟩
      rw [fwriteLoop_follow (fun h => hgo ((hkept.stops_iff hc).mp h)), follow, hkept c (.inr hc)]
      exact fwriteLoop_endless hg hn hapart hnext
        (hapart.storePart hg hc hgo hkept (u32_lt _) hn hpace)
        (hpace.partTotal hg.clusterSize_lt (u32_lt _) hn) fun hends => hendless hends.of_next

theorem fwriteLoop_isSome {w : ℕ} (hg : Geometry g) (hn : n < 2 ^ 32)
    (hholds : FirstCopyHolds g) (hwall : Wall g s.disk w)
    (hapart : WritesApart g s.disk first w) (hfirst : first < 2 ^ 28) :
    (fwriteLoop g data n file loopBound first 0 0 s).isSome ↔ ChainEnds g s.disk first := by
  have hpace : Paced g n 0 := ⟨by decide, .inl (Nat.zero_le n)⟩
  have hw := hwall.inFats
  have hfits := hg.fits
  have hdisk := hg.diskSize_le
  constructor
  · intro hsome
    by_contra hendless
    rw [fwriteLoop_endless hg hn hapart .refl (fun _ _ => rfl) hpace hendless] at hsome
    cases hsome
  · intro hends
    have hwithin : StopsWithin (follow g s.disk) (Stops g s.disk) (2 ^ 28 + 1) first :=
      (ends_iff_stopsWithin (follow_lt g s.disk) hfirst (Nat.lt_succ_self _)).mp hends
    refine fwriteLoop_isSome_of_stops hg hn hholds hwall hapart .refl (fun _ _ => rfl) hpace
      hwithin ?_
    unfold loopBound
    omega

end

/-! ## A chain that ends and one that does not -/

theorem tinyFile_first : tinyFile.fatDir.dirFstClusLO = 2 := by decide +kernel

/-- A disk on which every FAT entry is `2`. -/
def loopDisk : ℕ → UInt8 := fun i => if i % 4 = 0 then 2 else 0

end Neos.Fat
