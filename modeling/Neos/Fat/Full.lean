import Mathlib.Tactic.IntervalCases
import Neos.Fat.Files
import Neos.Fat.Search

/-!
# Writes that find the disk full

`fat_fwrite` returns `0` when a search for a free cluster fails.  By then the loop
has stored data along the chain, and it may have linked free clusters to it; the
last of them still has a zero entry.  Without a link the volume is as before but
for the data.
-/

namespace Neos.Fat

open ByteRange Relation

/-! ## What a failure should leave behind -/

/-- A data cluster is free, ends a chain, is bad, or is followed by a data cluster
that is not free. -/
def Sound (g : Bpb) (disk : ℕ → UInt8) : Prop :=
  ∀ c, ValidCluster g c → fatEntry g disk c = 0 ∨ EndMark (fatEntry g disk c) ∨
    fatEntry g disk c = badCluster ∨
      ValidCluster g (fatEntry g disk c) ∧ fatEntry g disk (fatEntry g disk c) ≠ 0

/-- A failed write to a file with the clusters `l`: the handle and the directory
entry are unchanged, no chain goes on in a free cluster, and the free clusters are
the same. -/
structure Unharmed (g : Bpb) (s : State) (file : FatFile) (l : List ℕ) (file' : FatFile)
    (s' : State) : Prop where
  handle : file' = file
  entry : ∀ dir, FileChain g s.disk file.firstParentCluster dir → (∀ x ∈ dir, x ∉ l) →
    file.entryPosition + sizeofDirEntry ≤ dir.length * g.clusterSize → ∀ i < sizeofDirEntry,
      chainByte g s'.disk dir (file.entryPosition + i) =
        chainByte g s.disk dir (file.entryPosition + i)
  sound : Sound g s'.disk
  free : ∀ c, ValidCluster g c → (fatEntry g s'.disk c = 0 ↔ fatEntry g s.disk c = 0)

/-- The search behind a cluster comes to numbers with used entries in the two FAT
copies only. -/
def Crowded (g : Bpb) (disk : ℕ → UInt8) (c : ℕ) : Prop :=
  ∀ x, Comes g disk (c + 1) x → x < 256 * g.fatSz32 ∧ fatEntry g disk x ≠ 0

/-- A number that no search passes, in front of which addresses do not wrap
around. -/
structure Wall (g : Bpb) (disk : ℕ → UInt8) (w : ℕ) : Prop where
  used : fatEntry g disk w ≠ 0
  bound : g.diskSize ≤ (w + 1) * g.secPerClus
  inFats : w < 256 * g.fatSz32
  fatFits : (g.rsvdSecCnt + 3 * g.fatSz32) * 512 ≤ 2 ^ 32
  dataFits : (g.rsvdSecCnt + 2 * g.fatSz32 + w * g.secPerClus) * 512 ≤ 2 ^ 32

section

variable {g : Bpb} {s s' : State} {disk disk' : ℕ → UInt8} {c f w x n : ℕ}
  {data : ℕ → UInt8}

/-! ## In front of the data area -/

/-- Nothing in front of the data area changed. -/
def SameFront (g : Bpb) (disk disk' : ℕ → UInt8) : Prop :=
  ∀ i < (g.rsvdSecCnt + 2 * g.fatSz32) * 512, disk' i = disk i

theorem SameFront.trans {disk₁ disk₂ disk₃ : ℕ → UInt8} (h : SameFront g disk₁ disk₂)
    (h' : SameFront g disk₂ disk₃) : SameFront g disk₁ disk₃ :=
  fun i hi => (h' i hi).trans (h i hi)

/-- The numbers with an entry in the two FAT copies. -/
theorem Geometry.fatEntryOffset_of_inFats (hg : Geometry g) (hx : x < 256 * g.fatSz32) :
    g.fatEntryOffset x = g.rsvdSecCnt * 512 + x * 4 := by
  have hfits := hg.fits
  have hdisk := hg.diskSize_le
  rw [Bpb.fatEntryOffset, hg.bytsPerSec, u32_of_lt (by omega)]

theorem ValidCluster.inFats (hg : Geometry g) (hc : ValidCluster g c) : c < 256 * g.fatSz32 := by
  have hlt := hc.lt_limit
  have hholds := hg.fatHolds
  omega

theorem SameFront.fatEntry (hg : Geometry g) (h : SameFront g disk disk')
    (hx : x < 256 * g.fatSz32) : Fat.fatEntry g disk' x = Fat.fatEntry g disk x := by
  have hoffset := hg.fatEntryOffset_of_inFats hx
  apply fatEntry_congr
  intro i hi
  exact h _ (by omega)

/-- A write behind the start of the data area. -/
theorem sameFront_write (hg : Geometry g) (s : State) {a : ℕ} (bs : List UInt8)
    (ha : g.firstDataSector * 512 ≤ a) : SameFront g s.disk (s.write a bs).disk := by
  rw [hg.firstDataSector_eq] at ha
  intro i hi
  exact writeBytes_outside (by omega)

/-- The cluster of a number whose bytes do not wrap around. -/
theorem Geometry.clusterOffset_of_fits (hg : Geometry g) (htwo : 2 ≤ c)
    (hfits : (g.rsvdSecCnt + 2 * g.fatSz32 + c * g.secPerClus) * 512 ≤ 2 ^ 32) :
    g.firstDataSector * 512 ≤ g.clusterOffset c ∧ g.clusterOffset c + g.clusterSize ≤ 2 ^ 32 := by
  have hle := Nat.le_mul_of_pos_right c hg.secPerClus_pos
  have hsub : sub32 c 2 = c - 2 := sub32_of_le htwo (by omega)
  have hsplit : c * g.secPerClus = (c - 2) * g.secPerClus + 2 * g.secPerClus := by
    rw [← Nat.add_mul, Nat.sub_add_cancel htwo]
  have hpos := hg.secPerClus_pos
  rw [Bpb.clusterOffset, hsub, hg.bytsPerSec, hg.firstDataSector_eq, hg.clusterSize_eq,
    u32_of_lt (n := g.rsvdSecCnt + 2 * g.fatSz32 + (c - 2) * g.secPerClus) (by omega),
    u32_of_lt (by omega)]
  omega

/-- Linking `c` to `v` changes the entry of `c` in both copies. -/
theorem fatEntry_link (hg : Geometry g) (hfits : (g.rsvdSecCnt + 3 * g.fatSz32) * 512 ≤ 2 ^ 32)
    {v : ℕ} (hc : c < 256 * g.fatSz32) (hx : x < 256 * g.fatSz32) (hv : v < 2 ^ 32) :
    fatEntry g (fatWriteFatEntry g s c v).disk x =
      if x = c ∨ x = c + 128 * g.fatSz32 then v else fatEntry g s.disk x := by
  have hoffset := hg.fatEntryOffset_of_inFats hc
  have hoffset' := hg.fatEntryOffset_of_inFats hx
  have hsecond : u32 (g.fatEntryOffset c + u32 (g.fatSz32 * g.bytsPerSec)) =
      g.rsvdSecCnt * 512 + (c + 128 * g.fatSz32) * 4 := by
    rw [hg.bytsPerSec, u32_of_lt (n := g.fatSz32 * 512) (by omega), u32_of_lt (by omega)]
    omega
  have hself : ∀ m a, leValue (readBytes (writeBytes m a (leBytes 4 v)) a 4) = v := by
    intro m a
    have hread := readBytes_writeBytes_self m a (leBytes 4 v)
    rw [length_leBytes] at hread
    rw [hread, leValue_leBytes]
    exact Nat.mod_eq_of_lt hv
  unfold fatEntry fatWriteFatEntry State.write
  simp only []
  rw [hsecond, hoffset']
  by_cases hcopy : x = c + 128 * g.fatSz32
  · rw [if_pos (.inr hcopy), hcopy, hself]
  · rw [readBytes_writeBytes_of_disjoint (by rw [length_leBytes]; omega)]
    by_cases heq : x = c
    · rw [if_pos (.inl heq), heq, hoffset, hself]
    · rw [if_neg (not_or.mpr ⟨heq, hcopy⟩), hoffset,
        readBytes_writeBytes_of_disjoint (by rw [length_leBytes]; omega)]

/-! ## A round, wherever the loop is -/

/-- The bytes counted so far do not exceed the data, unless the data fills all
addresses. -/
def Paced (g : Bpb) (n total : ℕ) : Prop :=
  total < 2 ^ 32 ∧ (total ≤ n ∨ 2 ^ 32 ≤ n + g.clusterSize)

theorem u32_of_ge {n : ℕ} (h : 2 ^ 32 ≤ n) (h' : n < 2 ^ 33) : u32 n = n - 2 ^ 32 := by
  unfold u32
  omega

/-- What is left of the data, up to one cluster. -/
theorem Paced.left (hC : g.clusterSize < 2 ^ 17) {total : ℕ} (hn : n < 2 ^ 32)
    (ht : Paced g n total) :
    ∃ bytes, (if n > u32 (g.clusterSize + total) then g.clusterSize else sub32 n total) = bytes ∧
      bytes ≤ g.clusterSize ∧ (total + bytes ≤ n ∨ 2 ^ 32 ≤ n + g.clusterSize) := by
  obtain ⟨htotal, hpace⟩ := ht
  by_cases hwrap : g.clusterSize + total < 2 ^ 32
  · rw [u32_of_lt hwrap]
    split
    · exact ⟨_, rfl, le_rfl, .inl (by omega)⟩
    · rw [sub32_of_le (by omega) hn]
      exact ⟨_, rfl, by omega, .inl (by omega)⟩
  · rw [u32_of_ge (not_lt.mp hwrap) (by omega), if_pos (by omega)]
    exact ⟨_, rfl, le_rfl, .inr (by omega)⟩

theorem Paced.add {total bytes k : ℕ} (hn : n < 2 ^ 32)
    (hsum : total + bytes ≤ n ∨ 2 ^ 32 ≤ n + g.clusterSize) (hk : k ≤ bytes) :
    Paced g n (u32 (total + k)) := by
  refine ⟨u32_lt _, ?_⟩
  rcases hsum with hsum | hfull
  · rw [u32_of_lt (by omega)]
    exact .inl (by omega)
  · exact .inr hfull

/-- A round stores no more than one cluster. -/
theorem transferPart_within (hC : g.clusterSize < 2 ^ 17) {p offset total : ℕ}
    (hlt : offset < 2 ^ 32) (hp : p < offset) (hn : n < 2 ^ 32) (ht : Paced g n total) :
    ∃ skip bytes, transferPart g p n offset g.clusterSize total = (skip, bytes) ∧
      skip + bytes ≤ g.clusterSize ∧ Paced g n (u32 (total + bytes)) := by
  obtain ⟨bytes, hbytes, hle, hsum⟩ := ht.left hC hn
  have hleft : sub32 offset p = offset - p := sub32_of_le hp.le hlt
  unfold transferPart
  rw [hleft]
  simp only [hbytes]
  split
  · next hfirst =>
      obtain ⟨skip, hskip, hskip_lt⟩ : ∃ skip, sub32 g.clusterSize (offset - p) = skip ∧
          skip < g.clusterSize :=
        ⟨_, sub32_of_le hfirst (by omega), by omega⟩
      rw [hskip, u32_of_lt (n := bytes + skip) (by omega)]
      split
      · next hover =>
          rw [sub32_of_le (a := bytes + skip) hover.le (by omega),
            sub32_of_le (by omega) (by omega)]
          exact ⟨_, _, rfl, by omega, Paced.add hn hsum (by omega)⟩
      · exact ⟨_, _, rfl, by omega, Paced.add hn hsum le_rfl⟩
  · exact ⟨_, _, rfl, by omega, Paced.add hn hsum le_rfl⟩

theorem Paced.partTotal (hC : g.clusterSize < 2 ^ 17) {p offset total : ℕ}
    (hlt : offset < 2 ^ 32) (hn : n < 2 ^ 32) (ht : Paced g n total) :
    Paced g n (Fat.partTotal g p n offset total) := by
  unfold Fat.partTotal
  split
  · next hp =>
      obtain ⟨skip, bytes, hpart, -, hpaced⟩ := transferPart_within hC hlt hp hn ht
      rwa [hpart]
  · exact ht

/-- The data of a round goes into its cluster. -/
theorem storePart_eq (hC : g.clusterSize < 2 ^ 17) (data : ℕ → UInt8) {p offset total : ℕ}
    (hlt : offset < 2 ^ 32) (hn : n < 2 ^ 32) (ht : Paced g n total)
    (hend : g.clusterOffset c + g.clusterSize ≤ 2 ^ 32) :
    ∃ k bs, k + bs.length ≤ g.clusterSize ∧
      storePart g data p n offset c total s = s.write (g.clusterOffset c + k) bs := by
  have hnothing : ∀ a, s.write a [] = s := by
    intro a
    rw [State.write, writeBytes_nil]
  unfold storePart
  split
  · next hp =>
      obtain ⟨skip, bytes, hpart, hwithin, -⟩ := transferPart_within hC hlt hp hn ht
      rw [hpart]
      dsimp only
      by_cases hempty : bytes = 0
      · refine ⟨0, [], by simp, ?_⟩
        rw [hempty, hnothing]
        exact hnothing _
      · refine ⟨skip, readBytes data total bytes, by rwa [length_readBytes], ?_⟩
        rw [u32_of_lt (by omega)]
  · exact ⟨0, [], by simp, (hnothing _).symm⟩

/-! ## Along the chain -/

/-- A round on a data cluster leaves everything in front of the data area and the
other clusters alone. -/
theorem storePart_valid (hg : Geometry g) (hc : ValidCluster g c) (data : ℕ → UInt8)
    {p offset total : ℕ} (hlt : offset < 2 ^ 32) (hn : n < 2 ^ 32) (ht : Paced g n total) :
    SameFront g s.disk (storePart g data p n offset c total s).disk ∧
      ∀ x j, ValidCluster g x → x ≠ c → j < g.clusterSize →
        clusterByte g (storePart g data p n offset c total s).disk x j =
          clusterByte g s.disk x j := by
  obtain ⟨k, bs, hk, heq⟩ := storePart_eq (s := s) hg.clusterSize_lt data (p := p) hlt hn ht
    (hg.cluster_lt hc)
  have hoffset := hg.clusterOffset_eq hc
  rw [heq]
  refine ⟨sameFront_write hg s bs (by omega), ?_⟩
  intro x j hx hne hj
  rw [clusterByte_writeCluster hg hc hx hk hj, if_neg (fun h => hne h.1)]

/-- A loop that fails comes to the last cluster with the FAT as it was. -/
theorem fwriteLoop_to_last (hg : Geometry g) (hn : n < 2 ^ 32) {file : FatFile} {last : ℕ}
    {r : Option ℕ × State} (hnone : r.1 = none) :
    ∀ {front : List ℕ} {rounds c offset total : ℕ} {s : State},
      FileChain g s.disk c (front ++ [last]) → Paced g n total →
        fwriteLoop g data n file rounds c offset total s = some r →
          ∃ rounds' offset' total' s₁, SameFront g s.disk s₁.disk ∧
            (∀ x j, ValidCluster g x → x ∉ front → j < g.clusterSize →
              clusterByte g s₁.disk x j = clusterByte g s.disk x j) ∧
            Paced g n total' ∧
            fwriteLoop g data n file (rounds' + 1) last offset' total' s₁ = some r
  | front, 0, c, offset, total, s, _, _, hloop => by cases hloop
  | [], rounds + 1, c, offset, total, s, hchain, hpace, hloop => by
      rcases hchain.entry_cases with ⟨hlast, -⟩ | ⟨rest, hrest, hnext, -⟩
      · obtain ⟨rfl, -⟩ := List.cons.inj hlast
        exact ⟨rounds, offset, total, s, fun _ _ => rfl, fun _ _ _ _ _ => rfl, hpace, hloop⟩
      · obtain ⟨-, rfl⟩ := List.cons.inj hrest
        exact absurd rfl hnext.chain.ne_nil
  | b :: front, rounds + 1, c, offset, total, s, hchain, hpace, hloop => by
      have hc := hchain.valid c hchain.chain.head_mem
      rcases hchain.entry_cases with ⟨hlast, -⟩ | ⟨rest, hrest, hnext, hvalid⟩
      · exact absurd (List.cons.inj hlast).2 (by simp)
      · obtain ⟨rfl, rfl⟩ := List.cons.inj hrest
        rw [fwriteLoop_round hc.ge_two (hvalid.not_special hg).2.1, advanceChain_link hg hvalid,
          Option.bind_some] at hloop
        dsimp only at hloop
        rw [if_neg (hvalid.not_isLast hg), (hvalid.not_special hg).2.2.2] at hloop
        obtain ⟨hfront, hbytes⟩ := storePart_valid (s := s) hg hc data (p := file.cursor)
          (u32_lt (offset + g.clusterSize)) hn hpace
        -- what is stored in this cluster does not change the rest of the chain
        have hnext' : LinkedChain (fatEntry g (storePart g data file.cursor n
            (u32 (offset + g.clusterSize)) b total s).disk) EndMark (fatEntry g s.disk b)
            (front ++ [last]) := hnext.chain.congr fun x hx =>
          hfront.fatEntry hg ((hnext.valid x hx).inFats hg)
        obtain ⟨rounds', offset', total', s₁, hfront', hbytes', hpace', hloop'⟩ :=
          fwriteLoop_to_last hg hn hnone ⟨hnext', hnext.valid⟩
            (hpace.partTotal hg.clusterSize_lt (u32_lt _) hn) hloop
        refine ⟨rounds', offset', total', s₁, hfront.trans hfront', ?_, hpace', hloop'⟩
        intro x j hx hnot hj
        obtain ⟨hxb, hxfront⟩ := not_or.mp (fun hor => hnot (List.mem_cons.mpr hor))
        rw [hbytes' x j hx hxfront hj, hbytes x j hx hxb hj]

/-- A search that fails, or a cluster that is linked and cleared. -/
theorem advanceChain_open (hg : Geometry g) {p offset : ℕ} (hc : c + 1 < 2 ^ 24)
    (hopen : OpenEnd (fatEntry g s.disk c)) {r : Option ℕ × State}
    (h : advanceChain g p n offset c (fatEntry g s.disk c) s = some r) :
    r.1 = some 0x0FFFFFFF ∨
      (r.1 = none ∧ r.2.disk = s.disk ∧
        ∀ x, Comes g s.disk (c + 1) x → fatEntry g s.disk x ≠ 0) ∨
      ∃ f s₁, Comes g s.disk (c + 1) f ∧ fatEntry g s.disk f = 0 ∧ r.1 = some f ∧
        s₁.disk = s.disk ∧ r.2 = fatClearCluster g (fatWriteFatEntry g s₁ c f) f := by
  unfold OpenEnd EndMark at hopen
  unfold advanceChain at h
  rw [if_pos hopen] at h
  split at h
  · split at h
    · rw [← Option.some_inj.mp h]
      exact .inl rfl
    · rw [← Option.some_inj.mp h]
      exact .inl rfl
  · obtain ⟨⟨free, s₁⟩, hfind, hrest⟩ := Option.bind_eq_some_iff.mp h
    have hstart : (Allocation.extend c).start = c + 1 := u32_of_lt (by omega)
    have hspec := hg.search_spec (a := .extend c) (by rwa [hstart]) hfind
    rw [hstart] at hspec
    obtain ⟨hdisk, ⟨hnone, hused⟩ | ⟨f, hf, hcomes, hfree⟩⟩ := hspec
    · dsimp only at hnone hrest
      rw [hnone] at hrest
      rw [← Option.some_inj.mp hrest]
      exact .inr (.inl ⟨rfl, hdisk, hused⟩)
    · dsimp only at hf hrest
      rw [hf] at hrest
      rw [← Option.some_inj.mp hrest]
      exact .inr (.inr ⟨f, s₁, hcomes, hfree, rfl, hdisk, rfl⟩)

/-! ## In front of a wall -/

/-- No search passes the wall. -/
theorem Wall.lt_of_comes (hg : Geometry g) (h : Wall g disk w) (hc : c < w)
    (hf : Comes g disk (c + 1) f) : c < f ∧ f ≤ w := by
  have hsmall := h.dataFits
  have hle := Nat.le_mul_of_pos_right w hg.secPerClus_pos
  obtain ⟨hstart, hbound, -⟩ := (hg.comes_iff (by omega)).mp hf
  refine ⟨by omega, ?_⟩
  rcases hbound with rfl | hbound
  · omega
  · have hmul : f * g.secPerClus < (w + 1) * g.secPerClus := lt_of_lt_of_le hbound h.bound
    have hlt := Nat.lt_of_mul_lt_mul_right hmul
    omega

/-- The numbers in front of a wall have clusters of their own, behind the FAT. -/
theorem Wall.clusterOffset (hg : Geometry g) (h : Wall g disk w) (htwo : 2 ≤ c) (hc : c < w) :
    g.firstDataSector * 512 ≤ g.clusterOffset c ∧ g.clusterOffset c + g.clusterSize ≤ 2 ^ 32 := by
  have hfits := h.dataFits
  have hmul := Nat.mul_le_mul_right g.secPerClus hc.le
  have hle := Nat.mul_le_mul_right 512
    (Nat.add_le_add_left hmul (g.rsvdSecCnt + 2 * g.fatSz32))
  exact hg.clusterOffset_of_fits htwo (hle.trans hfits)

/-- A round in front of a wall stores its data behind the FAT. -/
theorem Wall.storePart (hg : Geometry g) (h : Wall g disk w) (htwo : 2 ≤ c) (hc : c < w)
    (data : ℕ → UInt8) {p offset total : ℕ} (hlt : offset < 2 ^ 32) (hn : n < 2 ^ 32)
    (ht : Paced g n total) :
    SameFront g s.disk (Fat.storePart g data p n offset c total s).disk := by
  obtain ⟨hoffset, hend⟩ := h.clusterOffset hg htwo hc
  obtain ⟨k, bs, -, heq⟩ := storePart_eq (s := s) hg.clusterSize_lt data (p := p) hlt hn ht hend
  rw [heq]
  exact sameFront_write hg s bs (by omega)

/-- A wall stays as long as entries only become used. -/
theorem Wall.congr (h : Wall g disk w)
    (hw : fatEntry g disk' w = fatEntry g disk w ∨ fatEntry g disk' w ≠ 0) : Wall g disk' w := by
  refine ⟨?_, h.bound, h.inFats, h.fatFits, h.dataFits⟩
  rcases hw with hw | hw
  · rw [hw]
    exact h.used
  · exact hw

/-- After a cluster `f` was linked to `c`, cleared, and the data of `c` stored. -/
theorem Wall.linked (hg : Geometry g) (h : Wall g s.disk w) (htwo : 2 ≤ c) (hcf : c < f)
    (hfw : f < w) (data : ℕ → UInt8) {p offset total : ℕ} (hlt : offset < 2 ^ 32)
    (hn : n < 2 ^ 32) (ht : Paced g n total) {s₁ : State} (hs₁ : s₁.disk = s.disk) :
    ∀ x < 256 * g.fatSz32,
      fatEntry g (Fat.storePart g data p n offset c total
        (fatClearCluster g (fatWriteFatEntry g s₁ c f) f)).disk x =
      if x = c ∨ x = c + 128 * g.fatSz32 then f else fatEntry g s.disk x := by
  intro x hx
  have hw := h.inFats
  have hfits := h.dataFits
  obtain ⟨hoffset, -⟩ := h.clusterOffset hg (by omega) hfw
  have hstored := h.storePart hg htwo (hcf.trans hfw) (p := p) data hlt hn ht
    (s := fatClearCluster g (fatWriteFatEntry g s₁ c f) f)
  have hcleared : SameFront g (fatWriteFatEntry g s₁ c f).disk
      (fatClearCluster g (fatWriteFatEntry g s₁ c f) f).disk :=
    sameFront_write hg _ _ hoffset
  rw [hstored.fatEntry hg hx, hcleared.fatEntry hg hx,
    fatEntry_link hg h.fatFits (by omega) hx (by omega), hs₁]

/-- A loop that fails in front of a wall changes no entry in front of its current
cluster.  It goes on from a number whose entry is zero, or leads to itself since a
link was also stored in the second FAT copy. -/
theorem fwriteLoop_front (hg : Geometry g) (hn : n < 2 ^ 32) {file : FatFile}
    {r : Option ℕ × State} (hnone : r.1 = none) :
    ∀ {rounds c offset total : ℕ} {s : State}, Wall g s.disk w → 2 ≤ c → c < w →
      (fatEntry g s.disk c = 0 ∨ fatEntry g s.disk c = c) → Paced g n total →
        fwriteLoop g data n file rounds c offset total s = some r →
          ∀ x < c, x < clusterLimit g → fatEntry g r.2.disk x = fatEntry g s.disk x
  | 0, c, offset, total, s, _, _, _, _, _, hloop => by cases hloop
  | rounds + 1, c, offset, total, s, hwall, htwo, hcw, hentry, hpace, hloop => by
      intro x hxc hx
      have hfits := hwall.dataFits
      have hwfats := hwall.inFats
      have hle := Nat.le_mul_of_pos_right w hg.secPerClus_pos
      have hxfats : x < 256 * g.fatSz32 := by omega
      have hbad : fatEntry g s.disk c ≠ badCluster := by
        unfold badCluster
        omega
      have hpace' : Paced g n (partTotal g file.cursor n (u32 (offset + g.clusterSize)) total) :=
        hpace.partTotal hg.clusterSize_lt (u32_lt _) hn
      rw [fwriteLoop_round htwo hbad] at hloop
      obtain ⟨⟨next, s₁⟩, hadvance, hrest⟩ := Option.bind_eq_some_iff.mp hloop
      rcases hentry with hzero | hself
      · rcases advanceChain_open hg (by omega) (.inl hzero) hadvance with
          hmark | ⟨hfull, hdisk, -⟩ | ⟨f, s₀, hcomes, hfree, hf, hs₀, hs₁⟩
        · -- the data fits, and the loop ends with success
          have hlast : isLast 0x0FFFFFFF = true := isLast_iff.mpr (.inl ⟨by decide, by decide⟩)
          dsimp only at hmark hrest
          rw [hmark] at hrest
          dsimp only at hrest
          rw [if_pos hlast] at hrest
          rw [← Option.some_inj.mp hrest] at hnone
          cases hnone
        · dsimp only at hfull hdisk hrest
          rw [hfull] at hrest
          rw [← Option.some_inj.mp hrest, hdisk]
        · obtain ⟨hcf, hfw⟩ := hwall.lt_of_comes hg hcw hcomes
          have hne : f ≠ w := by
            rintro rfl
            exact hwall.used hfree
          have hfw' : f < w := by omega
          dsimp only at hf hs₁ hrest
          rw [hf] at hrest
          dsimp only at hrest
          have hlast : ¬ isLast f = true := by
            rw [isLast_iff, EndMark]
            omega
          rw [if_neg hlast, Nat.mod_eq_of_lt (by omega), hs₁] at hrest
          have hlinked := hwall.linked hg htwo hcf hfw' data (p := file.cursor)
            (u32_lt (offset + g.clusterSize)) hn hpace hs₀
          have hkeep := fwriteLoop_front hg hn hnone (hwall.congr ?_) (by omega) hfw' ?_ hpace' hrest
            x (by omega) hx
          · rw [hkeep, hlinked x hxfats, if_neg (by omega)]
          · rw [hlinked w hwfats]
            split
            · exact .inr (by omega)
            · exact .inl rfl
          · rw [hlinked f (by omega)]
            split
            · exact .inr rfl
            · exact .inl hfree
      · have hlink : advanceChain g file.cursor n offset c (fatEntry g s.disk c) s =
            some (some c, s) := by
          rw [advanceChain, if_neg (by omega), hself]
        obtain ⟨rfl, rfl⟩ := Prod.mk.inj (Option.some_inj.mp (hadvance.symm.trans hlink))
        have hlast : ¬ isLast c = true := by
          rw [isLast_iff, EndMark]
          omega
        dsimp only at hrest
        rw [if_neg hlast, Nat.mod_eq_of_lt (by omega)] at hrest
        have hfront := hwall.storePart (s := s₁) hg htwo hcw data (p := file.cursor)
          (u32_lt (offset + g.clusterSize)) hn hpace
        have hkeep := fwriteLoop_front hg hn hnone
          (hwall.congr (.inl (hfront.fatEntry hg hwfats))) htwo hcw
          (.inr ((hfront.fatEntry hg (by omega)).trans hself)) hpace' hrest x hxc hx
        rw [hkeep, hfront.fatEntry hg hxfats]

/-! ## Failed writes -/

/-- A write fails when its loop does, and leaves the handle alone. -/
theorem fatFwrite_failed {file file' : FatFile}
    (h : fatFwrite g data n file s = some (false, file', s')) :
    file' = file ∧
      fwriteLoop g data n file loopBound file.fatDir.dirFstClusLO 0 0 s = some (none, s') := by
  unfold fatFwrite fwriteNested fwriteWith at h
  obtain ⟨⟨written, s₁⟩, hloop, hrest⟩ := Option.bind_eq_some_iff.mp h
  cases written with
  | none =>
      cases hrest
      exact ⟨rfl, hloop⟩
  | some total =>
      dsimp only at hrest
      split at hrest
      · obtain ⟨s₂, -, hdone⟩ := Option.bind_eq_some_iff.mp hrest
        cases hdone
      · cases hrest

/-- Entries of the two FAT copies lead a search as before. -/
theorem comes_congr {start : ℕ} (hinside : ∀ x, Comes g disk start x → x < 256 * g.fatSz32)
    (hsame : ∀ x < 256 * g.fatSz32, fatEntry g disk' x = fatEntry g disk x) :
    ∀ x, Comes g disk' start x → Comes g disk start x := by
  intro x hx
  induction hx with
  | refl => exact .refl
  | tail _ hstep ih =>
      obtain ⟨heq, hused, hmore⟩ := hstep
      exact ih.tail ⟨heq, by rwa [← hsame _ (hinside _ ih)], hmore⟩

/-- How the loop ends when it fails: without a link, or behind a cluster that it
linked. -/
theorem fwriteLoop_failed (hg : Geometry g) (hn : n < 2 ^ 32) {file : FatFile}
    {front : List ℕ} {last : ℕ} (hchain : FileChain g s.disk c (front ++ [last]))
    (hloop : fwriteLoop g data n file loopBound c 0 0 s = some (none, s')) :
    ∃ s₁ : State, SameFront g s.disk s₁.disk ∧
      (∀ x j, ValidCluster g x → x ∉ front → j < g.clusterSize →
        clusterByte g s₁.disk x j = clusterByte g s.disk x j) ∧
      ((s'.disk = s₁.disk ∧ ∀ x, Comes g s₁.disk (last + 1) x → fatEntry g s₁.disk x ≠ 0) ∨
        ∃ (f : ℕ) (s₀ s₂ : State) (rounds offset total : ℕ),
          Comes g s₁.disk (last + 1) f ∧ fatEntry g s₁.disk f = 0 ∧
          s₀.disk = s₁.disk ∧ Paced g n total ∧ offset < 2 ^ 32 ∧
          s₂ = storePart g data file.cursor n offset last total
            (fatClearCluster g (fatWriteFatEntry g s₀ last f) f) ∧
          fwriteLoop g data n file rounds (f % 2 ^ 28) offset
            (partTotal g file.cursor n offset total) s₂ = some (none, s')) := by
  have hpace : Paced g n 0 := ⟨by decide, .inl (Nat.zero_le n)⟩
  obtain ⟨rounds, offset, total, s₁, hfront, hbytes, hpace', hloop'⟩ :=
    fwriteLoop_to_last (r := (none, s')) hg hn rfl hchain hpace hloop
  have hlast := hchain.valid last (by simp)
  have hlastlt := hlast.lt_limit
  have hlimit := hg.clusterLimit_lt
  -- the mark at the end of the chain is still there
  have hmark : EndMark (fatEntry g s₁.disk last) := by
    have hstop := hchain.chain.last_stop
    rw [hfront.fatEntry hg (hlast.inFats hg)]
    exact hstop
  rw [fwriteLoop_round hlast.ge_two hmark.not_special.2.1] at hloop'
  obtain ⟨⟨next, s₂⟩, hadvance, hrest⟩ := Option.bind_eq_some_iff.mp hloop'
  refine ⟨s₁, hfront, hbytes, ?_⟩
  rcases advanceChain_open hg (by omega) (.inr hmark) hadvance with
    hdone | ⟨hfull, hdisk, hused⟩ | ⟨f, s₀, hcomes, hfree, hf, hs₀, hs₂⟩
  · have hend : isLast 0x0FFFFFFF = true := isLast_iff.mpr (.inl ⟨by decide, by decide⟩)
    dsimp only at hdone hrest
    rw [hdone] at hrest
    dsimp only at hrest
    rw [if_pos hend] at hrest
    cases hrest
  · dsimp only at hfull hdisk hrest
    rw [hfull] at hrest
    cases hrest
    exact .inl ⟨hdisk, hused⟩
  · dsimp only at hf hs₂ hrest
    rw [hf] at hrest
    dsimp only at hrest
    split at hrest
    · cases hrest
    · rw [hs₂] at hrest
      exact .inr ⟨f, s₀, _, rounds, _, total, hcomes, hfree, hs₀, hpace', u32_lt _, rfl, hrest⟩

/-- A volume on which only data of the file changed. -/
theorem unharmed_of_front (hg : Geometry g) (hsound : Sound g s.disk) {file : FatFile}
    {front : List ℕ} {last : ℕ} (hfront : SameFront g s.disk s'.disk)
    (hbytes : ∀ x j, ValidCluster g x → x ∉ front → j < g.clusterSize →
      clusterByte g s'.disk x j = clusterByte g s.disk x j) :
    Unharmed g s file (front ++ [last]) file s' where
  handle := rfl
  entry := by
    intro dir hdir hdisjoint hinside i hi
    apply chainByte_congr hg.clusterSize_pos
    · intro x hx k hk
      refine hbytes x k (hdir.valid x hx) (fun hxfront => ?_) hk
      exact hdisjoint x hx (List.mem_append_left _ hxfront)
    · omega
  sound := by
    intro c hc
    rw [hfront.fatEntry hg (hc.inFats hg)]
    refine (hsound c hc).imp id (Or.imp id (Or.imp id ?_))
    rintro ⟨hnext, hused⟩
    rw [hfront.fatEntry hg (hnext.inFats hg)]
    exact ⟨hnext, hused⟩
  free := by
    intro c hc
    rw [hfront.fatEntry hg (hc.inFats hg)]

/-- A link in front of a wall leads to a number outside the data area, to a free
cluster, or to one that was free before. -/
theorem harmed_of_link (hg : Geometry g) (hn : n < 2 ^ 32) {file file' : FatFile} {l : List ℕ}
    {last : ℕ} {s₀ s₁ s₂ : State} {rounds offset total : ℕ} (hlast : ValidCluster g last)
    (hfront : SameFront g s.disk s₁.disk) (hwall : Wall g s₁.disk w) (hlw : last < w)
    (hcomes : Comes g s₁.disk (last + 1) f) (hfree : fatEntry g s₁.disk f = 0)
    (hs₀ : s₀.disk = s₁.disk) (hpace : Paced g n total) (hoffset : offset < 2 ^ 32)
    (hs₂ : s₂ = storePart g data file.cursor n offset last total
      (fatClearCluster g (fatWriteFatEntry g s₀ last f) f))
    (hloop : fwriteLoop g data n file rounds (f % 2 ^ 28) offset
      (partTotal g file.cursor n offset total) s₂ = some (none, s')) :
    ¬ Unharmed g s file l file' s' := by
  obtain ⟨hlf, hfw⟩ := hwall.lt_of_comes hg hlw hcomes
  have hne : f ≠ w := by
    rintro rfl
    exact hwall.used hfree
  have hfw' : f < w := by omega
  have hwfats := hwall.inFats
  have hfits := hwall.dataFits
  have hle := Nat.le_mul_of_pos_right w hg.secPerClus_pos
  have htwo := hlast.ge_two
  have hlimit := hlast.lt_limit
  have hlinked := hwall.linked hg htwo hlf hfw' data (p := file.cursor) hoffset hn hpace hs₀
  rw [← hs₂] at hlinked
  rw [Nat.mod_eq_of_lt (by omega)] at hloop
  have hwall₂ : Wall g s₂.disk w := by
    refine hwall.congr ?_
    rw [hlinked w hwfats]
    split
    · exact .inr (by omega)
    · exact .inl rfl
  have hentry : fatEntry g s₂.disk f = 0 ∨ fatEntry g s₂.disk f = f := by
    rw [hlinked f (by omega)]
    split
    · exact .inr rfl
    · exact .inl hfree
  have hkeep := fwriteLoop_front (r := (none, s')) hg hn rfl hwall₂ (by omega) hfw' hentry
    (hpace.partTotal hg.clusterSize_lt hoffset hn) hloop last hlf hlimit
  rw [hlinked last (by omega), if_pos (.inl rfl)] at hkeep
  intro h
  rcases h.sound last hlast with hzero | hmark | hbad | ⟨hvalid, hused⟩
  · rw [hkeep] at hzero
    omega
  · rw [hkeep, EndMark] at hmark
    omega
  · rw [hkeep, badCluster] at hbad
    omega
  · -- the cluster was free before the call
    rw [hkeep] at hvalid hused
    apply hused
    rw [h.free f hvalid, ← hfront.fatEntry hg (hvalid.inFats hg)]
    exact hfree

end

/-! ## A volume of five clusters -/

/-- Eight sectors: a reserved one, two FAT copies and the clusters `2` to `6`. -/
def tinyVolume : Bpb := ⟨512, 1, 1, 2, 0, 8, 1⟩

theorem geometry_tinyVolume : Geometry tinyVolume := by
  constructor <;> decide

/-- A disk on which every FAT entry is a mark. -/
def fullDisk : ℕ → UInt8 := fun i => if i % 4 = 3 then 0x0F else 0xFF

/-- The same disk with cluster `3` free. -/
def gapDisk : ℕ → UInt8 := fun i =>
  if 524 ≤ i ∧ i < 528 ∨ 1036 ≤ i ∧ i < 1040 then 0 else fullDisk i

/-- A file in cluster `2`. -/
def tinyFile : FatFile := { fatFileDefault with fatDir := DirEntry.zero.setFstClusLO 2 }

theorem validCluster_tinyVolume {c : ℕ} (hc : ValidCluster tinyVolume c) :
    c = 2 ∨ c = 3 ∨ c = 4 ∨ c = 5 ∨ c = 6 := by
  have hlimit : clusterLimit tinyVolume = 7 := by decide
  obtain ⟨htwo, hlt⟩ := hc
  omega

theorem tinyFile_chain {disk : ℕ → UInt8}
    (h : fatEntry tinyVolume disk 2 = 0x0FFFFFFF) :
    FileChain tinyVolume disk tinyFile.fatDir.dirFstClusLO ([] ++ [2]) := by
  have hfirst : tinyFile.fatDir.dirFstClusLO = 2 := by decide +kernel
  rw [hfirst]
  refine ⟨.last ?_, ?_⟩
  · rw [h]
    exact ⟨by decide, by decide⟩
  · intro x hx
    rw [List.mem_singleton.mp hx]
    exact ⟨by decide, by decide⟩

end Neos.Fat
