import Mathlib.Data.Finset.Card
import Neos.Fat.Files

/-!
# Room on the disk

`fat_fwrite` looks for free clusters behind the last cluster of the file only,
and does not stop at the last data cluster.  When there are enough free data
clusters behind the file, all the clusters it takes are among them.
-/

namespace Neos.Fat

variable {g : Bpb} {s s' : State} {c a n p : ℕ} {l rest : List ℕ} {data : ℕ → UInt8}

/-- The free data clusters behind a cluster. -/
def freeBehind (g : Bpb) (disk : ℕ → UInt8) (c : ℕ) : Finset ℕ :=
  {x ∈ Finset.range (clusterLimit g) | c < x ∧ fatEntry g disk x = 0}

theorem mem_freeBehind {disk : ℕ → UInt8} {x : ℕ} :
    x ∈ freeBehind g disk c ↔ x < clusterLimit g ∧ c < x ∧ fatEntry g disk x = 0 := by
  rw [freeBehind, Finset.mem_filter, Finset.mem_range]

/-- The search does not pass over a free cluster. -/
theorem findFreeCluster_least (hg : Geometry g) :
    ∀ {rounds start : ℕ} {s : State} {r : Option ℕ × State} {f : ℕ}, CacheFresh s →
      start < 2 ^ 24 → findFreeCluster g rounds start s = some r → r.1 = some f →
        ∀ x, start ≤ x → x < f → fatEntry g s.disk x ≠ 0
  | rounds + 1, start, s, r, f, hs, hstart, hfind, hf, x, hx, hxf => by
      obtain ⟨s', hread, hlooked⟩ := fatReadFatEntry_cached hg hs (c := start) (by omega)
      unfold findFreeCluster at hfind
      rw [hread] at hfind
      dsimp only at hfind
      split at hfind
      · rw [← Option.some_inj.mp hfind] at hf
        cases hf
        omega
      · rename_i hused
        rw [u32_of_lt (show start + 1 < 2 ^ 32 by omega)] at hfind
        split at hfind
        · rw [← Option.some_inj.mp hfind] at hf
          cases hf
        · rename_i hmore
          have hdisk := hg.diskSize_le
          have hmul : (start + 1) * g.secPerClus < 2 ^ 32 := by
            have hspc := hg.secPerClus_lt
            have hle := Nat.mul_le_mul (show start + 1 ≤ 2 ^ 24 by omega)
              (show g.secPerClus ≤ 255 by omega)
            omega
          rw [u32_of_lt hmul] at hmore
          have hge : start + 1 ≤ (start + 1) * g.secPerClus :=
            Nat.le_mul_of_pos_right _ hg.secPerClus_pos
          by_cases heq : x = start
          · rw [heq]
            exact hused
          · rw [← hlooked.disk]
            exact findFreeCluster_least hg hlooked.fresh (by omega) hfind hf x (by omega) hxf

/-- With a free data cluster behind the last one the search takes the first. -/
theorem advanceChain_room (hg : Geometry g) (hc : ValidCluster g c) (hpn : p + n < 2 ^ 32)
    (hlt : a + g.clusterSize < 2 ^ 32) (hopen : OpenEnd (fatEntry g s.disk c))
    (hover : a + g.clusterSize < p + n) {r : Option ℕ × State}
    (h : advanceChain g p n a c (fatEntry g s.disk c) s = some r)
    (hroom : (freeBehind g s.disk c).Nonempty) (htaken : ∀ t ∈ s.taken, ValidCluster g t) :
    (∀ t ∈ r.2.taken, ValidCluster g t) ∧
      ∀ f, r.1 = some f → ∀ x, c < x → x < f → fatEntry g s.disk x ≠ 0 := by
  have hclt := hc.lt_limit
  have hlimit := hg.clusterLimit_lt
  unfold OpenEnd EndMark at hopen
  unfold advanceChain at h
  rw [if_pos hopen, u32_of_lt hpn, u32_of_lt hlt, if_neg (not_le.mpr hover),
    u32_of_lt (show c + 1 < 2 ^ 32 by omega)] at h
  obtain ⟨⟨free, s₁⟩, hfind, hrest⟩ := Option.bind_eq_some_iff.mp h
  have hspec := findFreeCluster_spec hg (.inl rfl) (by omega) hfind
  cases free with
  | none =>
      rw [← Option.some_inj.mp hrest]
      dsimp only
      obtain ⟨-, ⟨-, hsame⟩ | ⟨f, hf, -⟩⟩ := hspec
      · refine ⟨?_, fun f hf => by cases hf⟩
        rw [hsame]
        exact htaken
      · cases hf
  | some f =>
      rw [← Option.some_inj.mp hrest]
      dsimp only
      have hleast := findFreeCluster_least hg (.inl rfl) (by omega) hfind rfl
      have hleast' : ∀ x, c < x → x < f → fatEntry g s.disk x ≠ 0 := fun x hcx hxf =>
        hleast x (by omega) hxf
      obtain ⟨-, ⟨hnone, -⟩ | ⟨f', hf, hsame, hle, -, hfree⟩⟩ := hspec
      · cases hnone
      · cases hf
        obtain ⟨x, hx⟩ := hroom
        obtain ⟨hxlimit, hcx, hxfree⟩ := mem_freeBehind.mp hx
        have hfx : f ≤ x := not_lt.mp fun hxf => hleast' x hcx hxf hxfree
        have hfvalid : ValidCluster g f := ⟨by have := hc.ge_two; omega, by omega⟩
        refine ⟨?_, fun f' hf' => by cases hf'; exact hleast'⟩
        rw [fatClearCluster_taken, fatWriteFatEntry_taken, hsame]
        rintro t (_ | ⟨_, ht⟩)
        · exact hfvalid
        · exact htaken t ht

/-- When there are enough free data clusters behind the chain, the loop takes data
clusters only. -/
theorem fwriteLoop_room (hg : Geometry g) (hfat : 3 * g.secPerClus ≤ g.fatSz32) (data : ℕ → UInt8)
    {file : FatFile} (hpn : file.cursor + n + 2 ^ 17 ≤ 2 ^ 32) :
    ∀ {rounds c a : ℕ} {front : List ℕ} {last : ℕ} {s : State} {r : Option ℕ × State},
      Growing g s c (front ++ [last]) → a + (front ++ [last]).length * g.clusterSize < 2 ^ 32 →
        file.cursor + n ≤
          a + ((front ++ [last]).length + (freeBehind g s.disk last).card) * g.clusterSize →
          (∀ t ∈ s.taken, ValidCluster g t) →
            fwriteLoop g data n file rounds c a (min n (a - file.cursor)) s = some r →
              ∀ t ∈ r.2.taken, ValidCluster g t
  | rounds + 1, c, a, front, last, s, r, h, hlt, hroom, htaken, hloop => by
      have hC := hg.clusterSize_lt
      have hc := h.valid c h.chain.head_mem
      have hone : a + g.clusterSize ≤ a + (front ++ [last]).length * g.clusterSize :=
        Nat.add_le_add_left (Nat.le_mul_of_pos_left _ h.chain.length_pos) a
      have hlt' : a + g.clusterSize < 2 ^ 32 := by omega
      have hn : n < 2 ^ 32 := by omega
      rw [fwriteLoop_succ hg hc hlt' hn (h.not_bad hg)] at hloop
      obtain ⟨⟨next, s₁⟩, hadvance, hrest⟩ := Option.bind_eq_some_iff.mp hloop
      rcases h.cases with ⟨hlast, hopen⟩ | ⟨rest', hrest', hmem, hnext, hgrow⟩
      · -- the current cluster is the last one
        obtain ⟨rfl, rfl⟩ := List.append_eq_singleton_iff.mp hlast |>.resolve_right (by simp)
          |>.imp id List.singleton_inj.mp
        rw [List.nil_append, List.length_singleton] at hroom hlt
        by_cases hfits : file.cursor + n ≤ a + g.clusterSize
        · obtain ⟨s₂, heq, hrel⟩ :=
            advanceChain_fits hg hfat hc (by omega) hlt' hopen hfits
          obtain ⟨rfl, rfl⟩ := Prod.mk.inj (Option.some_inj.mp (hadvance.symm.trans heq))
          have hmark : isLast 0x0FFFFFFF = true := isLast_iff.mpr (.inl ⟨by decide, by decide⟩)
          dsimp only at hrest
          rw [if_pos hmark] at hrest
          rw [← Option.some_inj.mp hrest]
          dsimp only
          rw [roundWrite_taken, hrel.taken]
          exact htaken
        · have hover := not_le.mp hfits
          have hcard : 0 < (freeBehind g s.disk last).card := by
            by_contra hzero
            rw [Nat.eq_zero_of_not_pos hzero] at hroom
            omega
          obtain ⟨hvalid₁, hleast⟩ := advanceChain_room hg hc (by omega) hlt' hopen hover hadvance
            (Finset.card_pos.mp hcard) htaken
          rcases advanceChain_extend hg hc (by omega) hlt' hopen hover hadvance hvalid₁ with
            hnone | ⟨f, hf, hfvalid, hcf, hfree, hrel⟩
          · dsimp only at hnone hrest
            rw [hnone] at hrest
            rw [← Option.some_inj.mp hrest]
            exact hvalid₁
          · dsimp only at hf hrest
            rw [hf] at hrest
            dsimp only at hrest
            rw [if_neg (hfvalid.not_isLast hg), (hfvalid.not_special hg).2.2.2] at hrest
            have hround := hrel.round hg data file.cursor hc hlt' hn
            have hgrow : Growing g (roundWrite g data file.cursor n a last s₁) f ([] ++ [f]) := by
              refine ⟨.last ?_, ?_⟩
              · rw [hround.entry f hfvalid.lt_limit, if_neg hcf.ne', hfree]
                exact .inl rfl
              · intro x hx
                rwa [List.mem_singleton.mp hx]
            -- one of the free clusters is used up
            have hleft : (freeBehind g s.disk last).card - 1 ≤
                (freeBehind g (roundWrite g data file.cursor n a last s₁).disk f).card := by
              rw [← Finset.card_erase_of_mem
                (mem_freeBehind.mpr ⟨hfvalid.lt_limit, hcf, hfree⟩)]
              apply Finset.card_le_card
              intro x hx
              obtain ⟨hne, hx⟩ := Finset.mem_erase.mp hx
              obtain ⟨hxlimit, hcx, hxfree⟩ := mem_freeBehind.mp hx
              refine mem_freeBehind.mpr ⟨hxlimit, ?_, ?_⟩
              · by_contra hxf
                exact hleast f hf x hcx (by omega) hxfree
              · rw [hround.entry x hxlimit, if_neg hcx.ne']
                exact hxfree
            have hmul : (1 + (freeBehind g s.disk last).card) * g.clusterSize ≤
                g.clusterSize +
                  (1 + (freeBehind g (roundWrite g data file.cursor n a last s₁).disk f).card) *
                    g.clusterSize := by
              have hle := Nat.mul_le_mul_right g.clusterSize (show 1 + (freeBehind g s.disk last).card ≤
                1 + (1 + (freeBehind g (roundWrite g data file.cursor n a last s₁).disk f).card) by
                  omega)
              rw [Nat.add_mul 1 (1 + _), Nat.one_mul] at hle
              exact hle
            refine fwriteLoop_room hg hfat data hpn hgrow ?_ ?_ ?_ hrest
            · rw [List.nil_append, List.length_singleton]
              omega
            · rw [List.nil_append, List.length_singleton]
              omega
            · rw [roundWrite_taken]
              exact hvalid₁
      · rw [advanceChain_link hg hnext] at hadvance
        obtain ⟨rfl, rfl⟩ := Prod.mk.inj (Option.some_inj.mp hadvance)
        dsimp only at hrest
        rw [if_neg (hnext.not_isLast hg), (hnext.not_special hg).2.2.2] at hrest
        have hgrow' := hgrow.congr (roundWrite g data file.cursor n a c s) fun x hx =>
          roundWrite_fat hg hc hlt' hn (hgrow.valid x hx).lt_limit
        obtain ⟨front', rfl⟩ : ∃ front', rest' = front' ++ [last] := by
          cases front with
          | nil =>
              obtain ⟨-, rfl⟩ := List.cons.inj hrest'
              exact absurd hgrow.chain.length_pos (by simp)
          | cons x front =>
              obtain ⟨-, rfl⟩ := List.cons.inj hrest'
              exact ⟨front, rfl⟩
        have hfree : freeBehind g (roundWrite g data file.cursor n a c s).disk last =
            freeBehind g s.disk last := by
          ext x
          rw [mem_freeBehind, mem_freeBehind]
          exact and_congr_right fun hx => by rw [roundWrite_fat hg hc hlt' hn hx]
        rw [hrest', List.length_cons] at hlt hroom
        rw [Nat.succ_mul] at hlt
        rw [Nat.succ_add, Nat.succ_mul] at hroom
        refine fwriteLoop_room hg hfat data hpn hgrow' (by omega) ?_ ?_ hrest
        · rw [hfree]
          omega
        · rw [roundWrite_taken]
          exact htaken

/-! ## Room for a write -/

/-- Enough free data clusters lie behind the file for `n` bytes at the cursor. -/
def Room (g : Bpb) (disk : ℕ → UInt8) (file : FatFile) (n : ℕ) : Prop :=
  ∀ front last, FileChain g disk file.fatDir.dirFstClusLO (front ++ [last]) →
    file.cursor + n ≤ ((front ++ [last]).length + (freeBehind g disk last).card) * g.clusterSize

/-- The data clusters end well before the addresses do, since the FAT copies come
first. -/
theorem clusters_margin (hg : Geometry g) {k : ℕ} (hk : k ≤ clusterLimit g - 2) :
    k * g.clusterSize + 2 ^ 17 ≤ 2 ^ 32 := by
  have hfit := hg.clusters_fit
  have hdisk := hg.diskSize_le
  have hsector := hg.firstDataSector_eq
  have hholds := hg.fatHolds
  have hC := hg.clusterSize_lt
  have hmul := Nat.mul_le_mul_right g.clusterSize hk
  by_contra hover
  have hmany : 2 ^ 15 ≤ clusterLimit g := by
    by_contra hfew
    have hle := Nat.mul_le_mul (show clusterLimit g - 2 ≤ 2 ^ 15 - 3 by omega) hC.le
    omega
  omega

/-- The chain and the free clusters are different data clusters. -/
theorem FileChain.card_le (hg : Geometry g) {first last : ℕ} {disk : ℕ → UInt8}
    (h : FileChain g disk first l) (hlast : 2 ≤ last) :
    l.length + (freeBehind g disk last).card ≤ clusterLimit g - 2 := by
  have hdisjoint : Disjoint l.toFinset (freeBehind g disk last) := by
    refine Finset.disjoint_left.mpr fun x hx hfree => ?_
    exact h.entry_ne_zero hg x (List.mem_toFinset.mp hx) (mem_freeBehind.mp hfree).2.2
  have hsubset : l.toFinset ∪ freeBehind g disk last ⊆ Finset.Ico 2 (clusterLimit g) := by
    intro x hx
    rw [Finset.mem_Ico]
    rcases Finset.mem_union.mp hx with hx | hx
    · exact ⟨(h.valid x (List.mem_toFinset.mp hx)).ge_two, (h.valid x (List.mem_toFinset.mp hx)).lt_limit⟩
    · obtain ⟨hlimit, hlt, -⟩ := mem_freeBehind.mp hx
      exact ⟨by omega, hlimit⟩
  have hcard := Finset.card_le_card hsubset
  rwa [Finset.card_union_of_disjoint hdisjoint, List.toFinset_card_of_nodup h.chain.nodup,
    Nat.card_Ico] at hcard

theorem FileChain.exists_last {first : ℕ} {disk : ℕ → UInt8} (h : FileChain g disk first l) :
    ∃ front last, l = front ++ [last] := by
  obtain ⟨front, last, hl⟩ := (List.eq_nil_or_concat l).resolve_left h.chain.ne_nil
  rw [List.concat_eq_append] at hl
  exact ⟨front, last, hl⟩

theorem Room.margin (hg : Geometry g) {file : FatFile} {disk : ℕ → UInt8}
    (hroom : Room g disk file n) (h : FileChain g disk file.fatDir.dirFstClusLO l) :
    file.cursor + n + 2 ^ 17 ≤ 2 ^ 32 := by
  obtain ⟨front, last, rfl⟩ := h.exists_last
  have hlast := (h.valid last (by simp)).ge_two
  have hmargin := clusters_margin hg (h.card_le hg hlast)
  have hend := hroom front last h
  omega

/-- Then the loop takes data clusters only. -/
theorem Room.valid (hg : Geometry g) (hfat : 3 * g.secPerClus ≤ g.fatSz32) {file : FatFile}
    (hroom : Room g s.disk file n) (h : FileChain g s.disk file.fatDir.dirFstClusLO l)
    (htaken : ∀ t ∈ s.taken, ValidCluster g t) {written : Option ℕ}
    (hloop : fwriteLoop g data n file loopBound file.fatDir.dirFstClusLO 0 0 s =
      some (written, s')) : ∀ t ∈ s'.taken, ValidCluster g t := by
  obtain ⟨front, last, rfl⟩ := h.exists_last
  have hzero : min n (0 - file.cursor) = 0 := by omega
  have hbytes := h.bytes_lt hg
  refine fwriteLoop_room hg hfat data (hroom.margin hg h) (a := 0) (h.growing hg)
    (by rwa [Nat.zero_add]) ?_ htaken (by rwa [hzero])
  rw [Nat.zero_add]
  exact hroom front last h

end Neos.Fat
