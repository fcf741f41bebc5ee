import Neos.Fat.Room
import Neos.Fat.Search

/-!
# Writes that succeed

With enough free data clusters behind the last cluster of a file, `fat_fwrite` ends
and returns 1.
-/

namespace Neos.Fat

variable {g : Bpb} {s : State} {c a n p : ℕ} {data : ℕ → UInt8} {file : FatFile} {l dir : List ℕ}

/-- The search does not stop in front of the last data cluster. -/
theorem ValidCluster.mul_lt (hg : Geometry g) (hfat : 3 * g.secPerClus ≤ g.fatSz32)
    (hc : ValidCluster g c) : c * g.secPerClus < g.diskSize := by
  obtain ⟨htwo, hlimit⟩ := hc
  have hfits := hg.fits
  have hrsvd := hg.rsvdSecCnt_pos
  have hdiv := Nat.div_mul_le_self (g.diskSize - (g.rsvdSecCnt + 2 * g.fatSz32)) g.secPerClus
  have hlast : c ≤ (g.diskSize - (g.rsvdSecCnt + 2 * g.fatSz32)) / g.secPerClus + 1 := by
    rw [clusterLimit] at hlimit
    omega
  have hmul := Nat.mul_le_mul_right g.secPerClus hlast
  rw [Nat.add_mul, Nat.one_mul] at hmul
  omega

/-- A search comes to the first free data cluster. -/
theorem exists_comes (hg : Geometry g) (hfat : 3 * g.secPerClus ≤ g.fatSz32) (hc : ValidCluster g c)
    (hroom : (freeBehind g s.disk c).Nonempty) :
    ∃ x, Comes g s.disk (c + 1) x ∧ fatEntry g s.disk x = 0 := by
  obtain ⟨x, hx⟩ := hroom
  obtain ⟨hlimit, hcx, hfree⟩ := mem_freeBehind.mp hx
  have hclt := hc.lt hg
  have hctwo := hc.ge_two
  have hexists : ∃ y, c < y ∧ fatEntry g s.disk y = 0 := ⟨x, hcx, hfree⟩
  have hle : Nat.find hexists ≤ x := Nat.find_min' hexists ⟨hcx, hfree⟩
  obtain ⟨hbehind, hzero⟩ := Nat.find_spec hexists
  have hvalid : ValidCluster g (Nat.find hexists) := ⟨by omega, by omega⟩
  have hlt := hvalid.lt hg
  refine ⟨Nat.find hexists, ?_, hzero⟩
  apply hg.comes_of_used (by omega) hbehind (.inr (hvalid.mul_lt hg hfat))
  intro y hy _ hyfirst hyzero
  exact Nat.find_min hexists hyfirst ⟨by omega, hyzero⟩

/-- So the chain is extended. -/
theorem advanceChain_found (hg : Geometry g) (hfat : 3 * g.secPerClus ≤ g.fatSz32)
    (hc : ValidCluster g c) (hpn : p + n < 2 ^ 32) (hlt : a + g.clusterSize < 2 ^ 32)
    (hopen : OpenEnd (fatEntry g s.disk c)) (hover : a + g.clusterSize < p + n)
    (hroom : (freeBehind g s.disk c).Nonempty) :
    ∃ f s', advanceChain g p n a c (fatEntry g s.disk c) s = some (some f, s') := by
  have hclt := hc.lt_limit
  have hlimit := hg.clusterLimit_lt
  have hstart : (Allocation.extend c).start = c + 1 := u32_of_lt (by omega)
  have hstart_lt : (Allocation.extend c).start < 2 ^ 24 := by
    rw [hstart]
    omega
  obtain ⟨⟨free, s₁⟩, hsearch⟩ := Option.isSome_iff_exists.mp (hg.search_isSome (s := s) hstart_lt)
  obtain ⟨-, hresult⟩ := hg.search_spec hstart_lt hsearch
  have hfind : findFreeCluster g loopBound (u32 (c + 1)) (fatInvalidateCache s) =
      some (free, s₁) := hsearch
  obtain ⟨x, hx, hzero⟩ := exists_comes hg hfat hc hroom
  rw [hstart] at hresult
  rcases hresult with ⟨-, hused⟩ | ⟨f, hf, -, -⟩
  · exact absurd hzero (hused x hx)
  · dsimp only at hf
    subst hf
    unfold OpenEnd EndMark at hopen
    unfold advanceChain
    rw [if_pos hopen, u32_of_lt hpn, u32_of_lt hlt, if_neg (not_le.mpr hover), hfind]
    exact ⟨f, _, rfl⟩

/-- A cluster that was linked to the chain ends it. -/
theorem Round.growing {s' : State} {f : ℕ} {new : List ℕ} (h : Round g data p n a s s' c f new)
    (hf : ValidCluster g f) (hcf : c < f) (hfree : fatEntry g s.disk f = 0) :
    Growing g s' f [f] := by
  refine ⟨.last ?_, ?_⟩
  · rw [h.entry f hf.lt_limit, if_neg hcf.ne', hfree]
    exact .inl rfl
  · intro x hx
    rwa [List.mem_singleton.mp hx]

/-- It was the first free data cluster behind the chain. -/
theorem Round.card_freeBehind {s' : State} {f : ℕ} {new : List ℕ}
    (h : Round g data p n a s s' c f new) (hf : ValidCluster g f) (hcf : c < f)
    (hfree : fatEntry g s.disk f = 0) (hleast : ∀ x, c < x → x < f → fatEntry g s.disk x ≠ 0) :
    (freeBehind g s.disk c).card = (freeBehind g s'.disk f).card + 1 := by
  have herase : freeBehind g s'.disk f = (freeBehind g s.disk c).erase f := by
    ext x
    rw [Finset.mem_erase, mem_freeBehind, mem_freeBehind]
    constructor
    · rintro ⟨hlimit, hfx, hzero⟩
      rw [h.entry x hlimit, if_neg (by omega)] at hzero
      exact ⟨by omega, hlimit, by omega, hzero⟩
    · rintro ⟨hne, hlimit, hcx, hzero⟩
      have hfx : ¬ x < f := fun hlt => hleast x hcx hlt hzero
      refine ⟨hlimit, by omega, ?_⟩
      rwa [h.entry x hlimit, if_neg (by omega)]
  rw [herase, Finset.card_erase_add_one (mem_freeBehind.mpr ⟨hf.lt_limit, hcf, hfree⟩)]

/-- The loop of `fat_fwrite` ends with all bytes written. -/
theorem fwriteLoop_succeeds (hg : Geometry g) (hfat : 3 * g.secPerClus ≤ g.fatSz32)
    (data : ℕ → UInt8) (hpn : file.cursor + n + 2 ^ 17 ≤ 2 ^ 32) :
    ∀ {rounds c a : ℕ} {front : List ℕ} {last : ℕ} {s : State},
      Growing g s c (front ++ [last]) → a + (front ++ [last]).length * g.clusterSize < 2 ^ 32 →
        file.cursor + n ≤
          a + ((front ++ [last]).length + (freeBehind g s.disk last).card) * g.clusterSize →
          (front ++ [last]).length + (freeBehind g s.disk last).card ≤ rounds →
            (∀ t ∈ s.taken, ValidCluster g t) →
              ∃ total s', fwriteLoop g data n file rounds c a (min n (a - file.cursor)) s =
                some (some total, s')
  | 0, _, _, front, last, _, _, _, _, hrounds, _ => by
      rw [List.length_append, List.length_singleton] at hrounds
      omega
  | rounds + 1, c, a, front, last, s, h, hlt, hroom, hrounds, htaken => by
      have hC := hg.clusterSize_lt
      have hc := h.valid c h.chain.head_mem
      have hone : a + g.clusterSize ≤ a + (front ++ [last]).length * g.clusterSize :=
        Nat.add_le_add_left (Nat.le_mul_of_pos_left _ h.chain.length_pos) a
      have hlt' : a + g.clusterSize < 2 ^ 32 := by omega
      have hn : n < 2 ^ 32 := by omega
      rw [fwriteLoop_succ hg hc hlt' hn (h.not_bad hg)]
      rcases h.cases with ⟨hlast, hopen⟩ | ⟨rest', hrest', hmem, hnext, hgrow⟩
      · -- the current cluster is the last one
        obtain ⟨rfl, rfl⟩ := List.append_eq_singleton_iff.mp hlast |>.resolve_right (by simp)
          |>.imp id List.singleton_inj.mp
        rw [List.nil_append, List.length_singleton] at hroom hlt hrounds
        by_cases hfits : file.cursor + n ≤ a + g.clusterSize
        · obtain ⟨s₂, heq, -⟩ := advanceChain_fits hg hfat hc (by omega) hlt' hopen hfits
          have hmark : isLast 0x0FFFFFFF = true := isLast_iff.mpr (.inl ⟨by decide, by decide⟩)
          rw [heq, Option.bind_some]
          dsimp only
          rw [if_pos hmark]
          exact ⟨_, _, rfl⟩
        · have hover := not_le.mp hfits
          have hcard : 0 < (freeBehind g s.disk last).card := by
            by_contra hzero
            rw [Nat.eq_zero_of_not_pos hzero] at hroom
            omega
          have hnonempty := Finset.card_pos.mp hcard
          obtain ⟨f, s₁, hadvance⟩ :=
            advanceChain_found hg hfat hc (by omega) hlt' hopen hover hnonempty
          obtain ⟨hvalid₁, hleast⟩ := advanceChain_room hg hc (by omega) hlt' hopen hover hadvance
            hnonempty htaken
          obtain ⟨f', hf', hfvalid, hcf, hfree, hrel⟩ := (advanceChain_extend hg hc (by omega) hlt'
            hopen hover hadvance hvalid₁).resolve_left (Option.some_ne_none f)
          obtain rfl : f = f' := Option.some_inj.mp hf'
          rw [hadvance, Option.bind_some]
          dsimp only at hrel hvalid₁ ⊢
          rw [if_neg (hfvalid.not_isLast hg), (hfvalid.not_special hg).2.2.2]
          have hround := hrel.round hg data file.cursor hc hlt' hn
          have hcard' := hround.card_freeBehind hfvalid hcf hfree (hleast f rfl)
          rw [hcard', ← Nat.add_assoc] at hroom hrounds
          rw [Nat.succ_mul] at hroom
          have hgrowing : Growing g _ f ([] ++ [f]) := hround.growing hfvalid hcf hfree
          refine fwriteLoop_succeeds hg hfat data hpn hgrowing ?_ ?_ ?_ ?_
          · rw [List.nil_append, List.length_singleton]
            omega
          · rw [List.nil_append, List.length_singleton]
            omega
          · rw [List.nil_append, List.length_singleton]
            omega
          · rw [roundWrite_taken]
            exact hvalid₁
      · rw [advanceChain_link hg hnext, Option.bind_some]
        dsimp only
        rw [if_neg (hnext.not_isLast hg), (hnext.not_special hg).2.2.2]
        have hgrow' := hgrow.congr (roundWrite g data file.cursor n a c s) fun x hx =>
          roundWrite_fat hg hc hlt' hn (hgrow.valid x hx).lt_limit
        obtain ⟨front', rfl⟩ : ∃ front', rest' = front' ++ [last] := by
          cases front with
          | nil =>
              obtain ⟨-, rfl⟩ := List.cons.inj hrest'
              exact absurd hgrow.chain.length_pos (by simp)
          | cons x front =>
              obtain ⟨-, rfl⟩ := List.cons.inj hrest'
              exact ⟨front, rfl⟩
        have hfree : freeBehind g (roundWrite g data file.cursor n a c s).disk last =
            freeBehind g s.disk last := by
          ext x
          rw [mem_freeBehind, mem_freeBehind]
          exact and_congr_right fun hx => by rw [roundWrite_fat hg hc hlt' hn hx]
        rw [hrest', List.length_cons] at hlt hroom hrounds
        rw [Nat.succ_mul] at hlt
        rw [Nat.succ_add, Nat.succ_mul] at hroom
        refine fwriteLoop_succeeds hg hfat data hpn hgrow' (by omega) ?_ ?_ ?_
        · rw [hfree]
          omega
        · rw [hfree]
          omega
        · rw [roundWrite_taken]
          exact htaken

/-- A write for which there is room succeeds. -/
theorem Room.succeeds (hg : Geometry g) (hfat : 3 * g.secPerClus ≤ g.fatSz32)
    (hroom : Room g s.disk file n) (h : FileChain g s.disk file.fatDir.dirFstClusLO l)
    (htaken : ∀ t ∈ s.taken, ValidCluster g t) (data : ℕ → UInt8) :
    ∃ total s', fwriteLoop g data n file loopBound file.fatDir.dirFstClusLO 0 0 s =
      some (some total, s') := by
  obtain ⟨front, last, rfl⟩ := h.exists_last
  have hlast := (h.valid last (by simp)).ge_two
  have hzero : min n (0 - file.cursor) = 0 := by omega
  have hbytes := h.bytes_lt hg
  have hcard := h.card_le hg hlast
  have hlimit := hg.clusterLimit_lt
  have hrounds : (front ++ [last]).length + (freeBehind g s.disk last).card ≤ loopBound := by
    rw [loopBound]
    omega
  have hspec := fwriteLoop_succeeds (a := 0) hg hfat data (hroom.margin hg h) (h.growing hg)
    (by rwa [Nat.zero_add]) (by rw [Nat.zero_add]; exact hroom front last h) hrounds htaken
  rwa [hzero] at hspec

theorem Room.fatFwrite (hg : Geometry g) (hfat : 3 * g.secPerClus ≤ g.fatSz32)
    (hroom : Room g s.disk file n) (h : OpenFile g s file l dir)
    (htaken : ∀ t ∈ s.taken, ValidCluster g t) (data : ℕ → UInt8) :
    ∃ file' s', Fat.fatFwrite g data n file s = some (true, file', s') := by
  have hpn := hroom.margin hg h.chain
  obtain ⟨total, s₁, hloop⟩ := hroom.succeeds hg hfat h.chain htaken data
  have hvalid := hroom.valid hg hfat h.chain htaken hloop
  obtain ⟨htotal, new, hwritten⟩ := (fwriteLoop_file hg hfat (by omega) h.chain
    (.inr ⟨hpn, hvalid⟩) hloop).resolve_left (fun hnone => Option.some_ne_none total hnone.1)
  obtain rfl : total = n := Option.some_inj.mp htotal
  have hparent := hwritten.chain_other hg h.parent h.apart
  have hfirst := (h.parent.valid _ h.parent.chain.head_mem).ge_two
  obtain ⟨s₂, hupdate, -⟩ := updateEntryWith_spec hg hfat
    (updateEntryWith g (fwriteNested g 0))
    { file with
      cursor := u32 (file.cursor + total)
      fatDir := file.fatDir.setFileSize (u32 (file.cursor + total)) }
    hfirst h.parent_lt hparent h.inside
  have hupdate' : updateEntryWith g (fwriteNested g 1)
    { file with
      cursor := u32 (file.cursor + total)
      fatDir := file.fatDir.setFileSize (u32 (file.cursor + total)) } s₁ = some s₂ := hupdate
  rw [Fat.fatFwrite, fwriteNested, fwriteWith, hloop, Option.bind_eq_bind, Option.bind_some]
  dsimp only
  split
  · rw [hupdate']
    exact ⟨_, _, rfl⟩
  · exact ⟨_, _, rfl⟩

end Neos.Fat
