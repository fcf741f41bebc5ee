import Neos.Library.LinkedChain
import Neos.Fat.Volume

/-!
# Cluster chains

The chain of a file, its bytes, and the two loops that only follow it:
`fat_file_cluster_count` and `fat_fread`.
-/

namespace Neos.Fat

open ByteRange

variable {g : Bpb} {s : State} {c first : ℕ} {l rest : List ℕ}

theorem ValidCluster.lt28 (hg : Geometry g) (hc : ValidCluster g c) : c < 2 ^ 28 :=
  (hc.lt hg).trans (by decide)

/-- The legal end-of-chain marks. -/
def EndMark (v : ℕ) : Prop := 0x0FFFFFF8 ≤ v ∧ v ≤ 0x0FFFFFFF

/-- A chain of data clusters that begins at `first` and ends in a legal mark. -/
structure FileChain (g : Bpb) (disk : ℕ → UInt8) (first : ℕ) (l : List ℕ) : Prop where
  chain : LinkedChain (fatEntry g disk) EndMark first l
  valid : ∀ c ∈ l, ValidCluster g c

/-- A byte of the clusters of a chain, counted from the start of the chain. -/
def chainByte (g : Bpb) (disk : ℕ → UInt8) (l : List ℕ) (j : ℕ) : UInt8 :=
  clusterByte g disk (l.getD (j / g.clusterSize) 0) (j % g.clusterSize)

theorem ValidCluster.not_endMark (hg : Geometry g) (hc : ValidCluster g c) : ¬ EndMark c := by
  have hlt := hc.lt hg
  unfold EndMark
  omega

namespace FileChain

/-- The clusters of a chain fit on the disk. -/
theorem bytes_lt (hg : Geometry g) (h : FileChain g s.disk first l) :
    l.length * g.clusterSize < 2 ^ 32 := by
  have hlen := h.chain.length_le (fun c hc => ⟨(h.valid c hc).ge_two, (h.valid c hc).lt_limit⟩)
  have hmul := Nat.mul_le_mul_right g.clusterSize hlen
  have hfit := hg.clusters_fit
  have hdisk := hg.diskSize_le
  have hsector := hg.firstDataSector_eq
  have hrsvd := hg.rsvdSecCnt_pos
  omega

theorem length_lt (hg : Geometry g) (h : FileChain g s.disk first l) : l.length < loopBound := by
  have hbytes := h.bytes_lt hg
  have hpos := hg.clusterSize_pos
  have hle := Nat.le_mul_of_pos_right l.length hpos
  unfold loopBound
  omega

end FileChain

/-! ## The FAT cache -/

/-- The cache is empty or holds its sector of the disk. -/
def CacheFresh (s : State) : Prop :=
  s.fatCacheSector = 0xFFFFFFFF ∨
    ∀ i, i < 512 → s.fatCache i = s.disk (s.fatCacheSector * 512 + i)

/-- Nothing but the cache differs, and it is fresh. -/
structure Looked (s s' : State) : Prop where
  disk : s'.disk = s.disk
  taken : s'.taken = s.taken
  fresh : CacheFresh s'

theorem Looked.trans {s₁ s₂ s₃ : State} (h : Looked s₁ s₂) (h' : Looked s₂ s₃) : Looked s₁ s₃ :=
  ⟨h'.disk.trans h.disk, h'.taken.trans h.taken, h'.fresh⟩

theorem looked_invalidate (s : State) : Looked s (fatInvalidateCache s) := ⟨rfl, rfl, .inl rfl⟩

theorem Looked.refl (h : CacheFresh s) : Looked s s := ⟨rfl, rfl, h⟩

/-- The part of `fat_read_fat_entry` that fills the cache. -/
def loadSector (g : Bpb) (s : State) (sector : ℕ) : State :=
  if sector ≠ s.fatCacheSector then
    { s with
      fatCache := writeBytes s.fatCache 0
        (readBytes s.disk (u32 (sector * g.bytsPerSec)) g.bytsPerSec)
      fatCacheSector := sector }
  else s

/-- The value that is read from the cache once it holds the sector. -/
def cachedEntry (g : Bpb) (s : State) (c : ℕ) : ℕ :=
  leValue (readBytes (loadSector g s (g.fatEntryOffset c / g.bytsPerSec)).fatCache
    (g.fatEntryOffset c % g.bytsPerSec) 4)

/-- The state with one more cached read. -/
def State.logged (s : State) (value entry : ℕ) : State :=
  { s with cachedReads := (value, entry) :: s.cachedReads }

theorem loadSector_disk (g : Bpb) (s : State) (sector : ℕ) :
    (loadSector g s sector).disk = s.disk := by
  unfold loadSector
  split <;> rfl

theorem fatReadFatEntry_eq (g : Bpb) (s : State) (c : ℕ) :
    fatReadFatEntry g s c true =
      (cachedEntry g s c, (loadSector g s (g.fatEntryOffset c / g.bytsPerSec)).logged
        (cachedEntry g s c) (fatEntry g s.disk c)) := by
  rw [fatEntry, ← loadSector_disk g s (g.fatEntryOffset c / g.bytsPerSec)]
  rfl

/-- The cache of a volume with any size of sectors. -/
def CacheHolds (g : Bpb) (s : State) : Prop :=
  s.fatCacheSector = 0xFFFFFFFF ∨
    ∀ i, i < g.bytsPerSec → s.fatCache i = s.disk (s.fatCacheSector * g.bytsPerSec + i)

theorem cacheFresh_iff (hg : Geometry g) : CacheFresh s ↔ CacheHolds g s := by
  unfold CacheFresh CacheHolds
  rw [hg.bytsPerSec]

/-- After loading a sector the cache holds it. -/
theorem loadSector_holds (hs : CacheHolds g s) (sector : ℕ)
    (hsector : sector ≠ 0xFFFFFFFF) (haddr : sector * g.bytsPerSec < 2 ^ 32) :
    (loadSector g s sector).disk = s.disk ∧ (loadSector g s sector).taken = s.taken ∧
      CacheHolds g (loadSector g s sector) ∧ ∀ i, i < g.bytsPerSec →
        (loadSector g s sector).fatCache i = s.disk (sector * g.bytsPerSec + i) := by
  have hload : ∀ i, i < g.bytsPerSec →
      writeBytes s.fatCache 0 (readBytes s.disk (sector * g.bytsPerSec) g.bytsPerSec) i =
        s.disk (sector * g.bytsPerSec + i) := by
    intro i hi
    have hin : writeBytes s.fatCache 0
        (readBytes s.disk (sector * g.bytsPerSec) g.bytsPerSec) (0 + i) = _ :=
      writeBytes_inside (by rwa [length_readBytes])
    rw [Nat.zero_add] at hin
    rw [hin, getD_readBytes _ _ hi]
  unfold loadSector
  rw [u32_of_lt haddr]
  split
  · exact ⟨rfl, rfl, .inr hload, hload⟩
  · rename_i heq
    rw [not_not] at heq
    refine ⟨rfl, rfl, hs, ?_⟩
    rcases hs with hnone | hsame
    · exact absurd (heq.trans hnone) hsector
    · rwa [heq]

/-- After loading a sector of 512 bytes the cache holds it. -/
theorem loadSector_spec (hg : Geometry g) (hs : CacheFresh s) {sector : ℕ}
    (hsector : sector < 2 ^ 23) :
    Looked s (loadSector g s sector) ∧
      ∀ i, i < 512 → (loadSector g s sector).fatCache i = s.disk (sector * 512 + i) := by
  have hbps := hg.bytsPerSec
  obtain ⟨hdisk, htaken, hholds, hcache⟩ := loadSector_holds ((cacheFresh_iff hg).mp hs)
    sector (by omega) (by rw [hbps]; omega)
  rw [hbps] at hcache
  exact ⟨⟨hdisk, htaken, (cacheFresh_iff hg).mpr hholds⟩, hcache⟩

/-- An entry that does not cross the end of its sector is read as it is on the disk. -/
theorem cachedEntry_eq (hinside : g.fatEntryOffset c % g.bytsPerSec + 4 ≤ g.bytsPerSec)
    (hcache : ∀ i, i < g.bytsPerSec →
      (loadSector g s (g.fatEntryOffset c / g.bytsPerSec)).fatCache i =
        s.disk (g.fatEntryOffset c / g.bytsPerSec * g.bytsPerSec + i)) :
    cachedEntry g s c = fatEntry g s.disk c := by
  have hdiv := Nat.div_add_mod' (g.fatEntryOffset c) g.bytsPerSec
  unfold cachedEntry fatEntry
  congr 1
  apply readBytes_congr
  intro i hi
  rw [hcache _ (by omega)]
  congr 1
  omega

/-- Through a fresh cache the entry on the disk is read. -/
theorem fatReadFatEntry_cached (hg : Geometry g) (hs : CacheFresh s) (hc : c < 2 ^ 28) :
    ∃ s', fatReadFatEntry g s c true = (fatEntry g s.disk c, s') ∧ Looked s s' := by
  have hrsvd := hg.rsvdSecCnt_lt
  have hbps := hg.bytsPerSec
  have hoffset := hg.fatEntryOffset_of_lt hc
  have hsector : g.fatEntryOffset c / 512 < 2 ^ 23 := by omega
  obtain ⟨hlooked, hcache⟩ := loadSector_spec hg hs hsector
  have hvalue : cachedEntry g s c = fatEntry g s.disk c :=
    cachedEntry_eq (by rw [hbps]; omega) (by rwa [hbps])
  rw [fatReadFatEntry_eq, hvalue, hbps]
  exact ⟨_, rfl, hlooked.disk, hlooked.taken, hlooked.fresh⟩

/-! ## Counting the clusters -/

/-- The test that ends the loops is passed by the legal marks only. -/
theorem isLast_iff {v : ℕ} : isLast v = true ↔ EndMark v ∨ v = 0xFFFFFFFF := by
  unfold isLast EndMark
  exact decide_eq_true_iff

/-- What the loops see in the FAT entry of a cluster of a chain: the mark at its
end, or the number of the next cluster. -/
theorem FileChain.entry_cases {disk : ℕ → UInt8} (h : FileChain g disk first l) :
    (l = [first] ∧ EndMark (fatEntry g disk first)) ∨
      ∃ rest, l = first :: rest ∧ FileChain g disk (fatEntry g disk first) rest ∧
        ValidCluster g (fatEntry g disk first) := by
  obtain ⟨hchain, hvalid⟩ := h
  cases hchain with
  | last hstop => exact .inl ⟨rfl, hstop⟩
  | link hgo hrest =>
      have hvalid' := fun c hc => hvalid c (List.mem_cons_of_mem _ hc)
      exact .inr ⟨_, rfl, ⟨hrest, hvalid'⟩, hvalid' _ hrest.head_mem⟩

/-- The number of a data cluster is none of the special values. -/
theorem ValidCluster.not_special (hg : Geometry g) (hc : ValidCluster g c) :
    c ≠ 0 ∧ c ≠ badCluster ∧ isLast c = false ∧ c % 2 ^ 28 = c := by
  have hge := hc.ge_two
  have hlt := hc.lt hg
  refine ⟨by omega, ?_, ?_, Nat.mod_eq_of_lt (by omega)⟩
  · unfold badCluster
    omega
  · rw [← Bool.not_eq_true, isLast_iff]
    rintro (hmark | hlast)
    · exact hc.not_endMark hg hmark
    · omega

theorem EndMark.not_special {v : ℕ} (hv : EndMark v) : v ≠ 0 ∧ v ≠ badCluster ∧ isLast v = true := by
  obtain ⟨hlo, hhi⟩ := id hv
  refine ⟨by omega, ?_, isLast_iff.mpr (.inl hv)⟩
  unfold badCluster
  omega

theorem clusterCountLoop_spec (hg : Geometry g) :
    ∀ {rounds : ℕ} {rest : List ℕ} {c : ℕ} (count : ℕ) {s : State}, FileChain g s.disk c rest →
      CacheFresh s → rest.length ≤ rounds →
        ∃ s', clusterCountLoop g rounds c count s = some (count + rest.length, s') ∧ Looked s s'
  | 0, rest, _, _, _, h, _, hrounds => by
      have hpos := h.chain.length_pos
      omega
  | rounds + 1, rest, c, count, s, h, hs, hrounds => by
      have hc := h.valid c h.chain.head_mem
      obtain ⟨s', hread, hlooked⟩ := fatReadFatEntry_cached hg hs (hc.lt28 hg)
      unfold clusterCountLoop
      rw [if_neg (not_lt.mpr hc.ge_two), hread]
      dsimp only
      rcases h.entry_cases with ⟨rfl, hmark⟩ | ⟨rest', rfl, hrest, hnext⟩
      · obtain ⟨h0, hbad, hlast⟩ := hmark.not_special
        rw [if_neg hbad, if_neg h0, if_pos hlast]
        exact ⟨s', rfl, hlooked⟩
      · obtain ⟨h0, hbad, hlast, hmod⟩ := hnext.not_special hg
        rw [if_neg hbad, if_neg h0, if_neg (by rw [hlast]; exact Bool.false_ne_true), hmod]
        rw [← hlooked.disk] at hrest
        obtain ⟨s'', hloop, hlooked'⟩ := clusterCountLoop_spec hg (count + 1) hrest
          hlooked.fresh (Nat.le_of_succ_le_succ hrounds)
        refine ⟨s'', ?_, hlooked.trans hlooked'⟩
        rw [← hlooked.disk, hloop, List.length_cons]
        congr 2
        omega

/-- `fat_file_cluster_count` counts the clusters of the chain. -/
theorem fatFileClusterCount_spec (hg : Geometry g) (file : FatFile)
    (h : FileChain g s.disk file.fatDir.dirFstClusLO l) :
    ∃ s', fatFileClusterCount g file s = some (l.length, s') ∧ Looked s s' := by
  obtain ⟨s', hloop, hlooked⟩ := clusterCountLoop_spec (s := fatInvalidateCache s) hg 0 h
    (.inl rfl) (h.length_lt hg).le
  rw [Nat.zero_add] at hloop
  exact ⟨s', hloop, (looked_invalidate s).trans hlooked⟩

/-! ## The part of a cluster that a round transfers -/

/-- With `a` bytes of the chain before the cluster, of which `total` were
transferred, a round transfers what lies between the cursor and the end of the
part, up to `n` bytes in all. -/
theorem transferPart_eq (hC : g.clusterSize < 2 ^ 17) {a p n part : ℕ} (hpart : part ≤ g.clusterSize)
    (hp : p < a + g.clusterSize) (hpe : p ≤ a + part) (hlt : a + g.clusterSize < 2 ^ 32)
    (hn : n < 2 ^ 32) :
    transferPart g p n (a + g.clusterSize) part (min n (a - p)) =
      (p - a, min n (a + part - p) - min n (a - p)) := by
  have hsub : sub32 (a + g.clusterSize) p = a + g.clusterSize - p := sub32_of_le hp.le hlt
  have hsum : u32 (part + min n (a - p)) = part + min n (a - p) := u32_of_lt (by omega)
  have hleft : sub32 n (min n (a - p)) = n - min n (a - p) := sub32_of_le (by omega) hn
  obtain ⟨bytes, hbytes, hle, hmin⟩ : ∃ bytes,
      (if n > part + min n (a - p) then part else n - min n (a - p)) = bytes ∧ bytes ≤ part ∧
        bytes = min part (n - min n (a - p)) := by
    refine ⟨_, rfl, ?_⟩
    split <;> omega
  unfold transferPart
  rw [hsub, hsum, hleft]
  simp only [hbytes]
  split
  · rename_i hfirst
    have hskip : sub32 g.clusterSize (a + g.clusterSize - p) = p - a := by
      rw [sub32_of_le hfirst (by omega)]
      omega
    have hwhole : u32 (bytes + (p - a)) = bytes + (p - a) := u32_of_lt (by omega)
    rw [hskip, hwhole]
    split
    · rename_i hcross
      rw [sub32_of_le hcross.le (by omega), sub32_of_le (by omega) (by omega)]
      congr 1
      omega
    · congr 1
      omega
  · have ha : p - a = 0 := by omega
    rw [ha]
    congr 1
    omega

/-- The bytes transferred after the round. -/
theorem transferTotal_eq (hC : g.clusterSize < 2 ^ 17) {a p n part : ℕ}
    (hpart : part ≤ g.clusterSize) (hpe : p ≤ a + part ∨ a + g.clusterSize ≤ p)
    (hlt : a + g.clusterSize < 2 ^ 32) (hn : n < 2 ^ 32) :
    (if a + g.clusterSize > p then
        u32 (min n (a - p) + (transferPart g p n (a + g.clusterSize) part (min n (a - p))).2)
      else min n (a - p)) = min n (a + part - p) := by
  split
  · rename_i hp
    rw [transferPart_eq hC hpart hp (by omega) hlt hn, u32_of_lt (by dsimp only; omega)]
    dsimp only
    omega
  · omega

/-! ## Reading a file -/

theorem chainByte_head {disk : ℕ → UInt8} {j : ℕ} (hj : j < g.clusterSize) :
    chainByte g disk (c :: rest) j = clusterByte g disk c j := by
  rw [chainByte, Nat.div_eq_of_lt hj, Nat.mod_eq_of_lt hj]
  rfl

theorem chainByte_tail {disk : ℕ → UInt8} {j : ℕ} (hpos : 0 < g.clusterSize)
    (hj : g.clusterSize ≤ j) :
    chainByte g disk (c :: rest) j = chainByte g disk rest (j - g.clusterSize) := by
  obtain ⟨k, rfl⟩ := Nat.exists_eq_add_of_le hj
  rw [chainByte, chainByte, Nat.add_sub_cancel_left, Nat.add_div_left _ hpos, Nat.add_mod_left]
  rfl

/-- The output buffer after the round for one cluster. -/
theorem readRound_eq (hg : Geometry g) (hc : ValidCluster g c) {a p n part : ℕ} (out : ℕ → UInt8)
    (hpart : part ≤ g.clusterSize) (hpe : p ≤ a + part ∨ a + g.clusterSize ≤ p)
    (hlt : a + g.clusterSize < 2 ^ 32) (hn : n < 2 ^ 32) :
    (if a + g.clusterSize > p then
        writeBytes out (min n (a - p))
          (readBytes s.disk (u32 (g.clusterOffset c +
            (transferPart g p n (a + g.clusterSize) part (min n (a - p))).1))
            (transferPart g p n (a + g.clusterSize) part (min n (a - p))).2)
      else out) =
      fun x => if min n (a - p) ≤ x ∧ x < min n (a + part - p) then
        clusterByte g s.disk c (p + x - a) else out x := by
  funext x
  split
  · rename_i hp
    have hend := hg.cluster_lt hc
    have hpos := hg.clusterSize_pos
    rw [transferPart_eq hg.clusterSize_lt hpart hp (by omega) hlt hn]
    dsimp only
    rw [u32_of_lt (by omega)]
    split
    · rename_i hx
      obtain ⟨i, rfl⟩ := Nat.exists_eq_add_of_le hx.1
      rw [writeBytes_inside (by rw [length_readBytes]; omega), getD_readBytes _ _ (by omega),
        clusterByte]
      congr 1
      omega
    · apply writeBytes_outside
      rw [length_readBytes]
      omega
  · rw [if_neg (by omega)]

theorem readPartSize_eq (file : FatFile) {a : ℕ} (hC : g.clusterSize < 2 ^ 17)
    (hlt : a + g.clusterSize < 2 ^ 32) (ha : a ≤ file.fatDir.dirFileSize) :
    readPartSize g file (a + g.clusterSize) =
      min g.clusterSize (file.fatDir.dirFileSize - a) := by
  unfold readPartSize
  split
  · rename_i hover
    rw [sub32_of_le hover.le hlt, sub32_of_le (by omega) (by omega)]
    omega
  · omega

/-- From a cluster on, with `a` bytes of the chain before it, the loop of
`fat_fread` transfers what is left between the cursor and the end of the
file. -/
theorem freadLoop_spec (hg : Geometry g) (file : FatFile) {n : ℕ} (hn : n < 2 ^ 32)
    (hp : file.cursor ≤ file.fatDir.dirFileSize) :
    ∀ {rounds : ℕ} {rest : List ℕ} {c a : ℕ} (out : ℕ → UInt8) {s : State},
      FileChain g s.disk c rest → CacheFresh s → rest.length ≤ rounds →
        a + (rest.length - 1) * g.clusterSize ≤ file.fatDir.dirFileSize →
        file.fatDir.dirFileSize ≤ a + rest.length * g.clusterSize →
        a + rest.length * g.clusterSize < 2 ^ 32 →
          ∃ s', freadLoop g file n rounds c a (min n (a - file.cursor)) out s =
              some (fun x => if min n (a - file.cursor) ≤ x ∧
                  x < min n (file.fatDir.dirFileSize - file.cursor) then
                chainByte g s.disk rest (file.cursor + x - a) else out x,
                min n (file.fatDir.dirFileSize - file.cursor), s') ∧ Looked s s'
  | 0, _, _, _, _, _, h, _, hrounds, _, _, _ => by
      have hpos := h.chain.length_pos
      omega
  | rounds + 1, rest, c, a, out, s, h, hs, hrounds, hlo, hhi, hlt => by
      have hc := h.valid c h.chain.head_mem
      have hC := hg.clusterSize_lt
      have hpos := hg.clusterSize_pos
      obtain ⟨s', hread, hlooked⟩ := fatReadFatEntry_cached hg hs (hc.lt28 hg)
      generalize hS : file.fatDir.dirFileSize = S at hp hlo hhi
      generalize hcur : file.cursor = p at hp
      have hlen := h.chain.length_pos
      have hone : a + g.clusterSize ≤ a + rest.length * g.clusterSize :=
        Nat.add_le_add_left (Nat.le_mul_of_pos_left _ hlen) a
      have hlt' : a + g.clusterSize < 2 ^ 32 := by omega
      have hpart := readPartSize_eq file hC hlt' (by omega)
      rw [hS] at hpart
      have hpe : p ≤ a + min g.clusterSize (S - a) ∨ a + g.clusterSize ≤ p := by omega
      have hround := readRound_eq (s := s') hg hc out (n := n)
        (min_le_left g.clusterSize (S - a)) hpe hlt' hn
      have htotal := transferTotal_eq (p := p) (n := n) hC (min_le_left g.clusterSize (S - a))
        hpe hlt' hn
      unfold freadLoop
      rw [if_neg (not_lt.mpr hc.ge_two), hread]
      simp only [hpart, hcur, u32_of_lt hlt', hround, htotal]
      rcases h.entry_cases with ⟨rfl, hmark⟩ | ⟨rest', rfl, hrest, hnext⟩
      · obtain ⟨h0, hbad, hlast⟩ := hmark.not_special
        rw [if_neg h0, if_neg hbad, if_pos hlast]
        rw [List.length_singleton, Nat.one_mul] at hhi
        have hend : a + min g.clusterSize (S - a) = S := by omega
        rw [hend, hlooked.disk]
        refine ⟨s', ?_, hlooked⟩
        congr 2
        funext x
        split
        · rename_i hx
          rw [chainByte_head (by omega)]
        · rfl
      · obtain ⟨h0, hbad, hlast, hmod⟩ := hnext.not_special hg
        rw [if_neg h0, if_neg hbad, if_neg (by rw [hlast]; exact Bool.false_ne_true), hmod]
        have hlen' := hrest.chain.length_pos
        rw [List.length_cons, Nat.succ_mul] at hhi hlt
        rw [List.length_cons, Nat.add_sub_cancel] at hlo
        have hwhole : rest'.length * g.clusterSize =
            (rest'.length - 1) * g.clusterSize + g.clusterSize := by
          rw [← Nat.succ_mul, Nat.succ_eq_add_one, Nat.sub_add_cancel hlen']
        have hend : a + min g.clusterSize (S - a) = a + g.clusterSize := by omega
        rw [← hlooked.disk] at hrest
        obtain ⟨s'', hloop, hlooked'⟩ := freadLoop_spec hg file hn
          (by rw [hS, hcur]; exact hp) (a := a + g.clusterSize) _ hrest hlooked.fresh
          (Nat.le_of_succ_le_succ hrounds) (by omega) (by omega) (by omega)
        rw [hcur, hS, hlooked.disk] at hloop
        rw [hend, hlooked.disk, hloop]
        refine ⟨s'', ?_, hlooked.trans hlooked'⟩
        congr 2
        funext x
        by_cases hx : min n (a + g.clusterSize - p) ≤ x ∧ x < min n (S - p)
        · rw [if_pos hx, if_pos (by omega), chainByte_tail hpos (by omega)]
          congr 1
          omega
        · rw [if_neg hx]
          by_cases hx' : min n (a - p) ≤ x ∧ x < min n (a + g.clusterSize - p)
          · rw [if_pos hx', if_pos (by omega), chainByte_head (by omega)]
          · rw [if_neg hx', if_neg (by omega)]

/-- The last cluster of the chain is needed for the size of the file, or is its
only one. -/
structure SizeFits (g : Bpb) (size clusters : ℕ) : Prop where
  needed : (clusters - 1) * g.clusterSize ≤ size
  enough : size ≤ clusters * g.clusterSize

/-- `fat_fread` transfers the bytes of the file between the cursor and its end to
the start of the buffer, as many as were asked for. -/
theorem fatFread_spec (hg : Geometry g) (file : FatFile) {n : ℕ} (hn : n < 2 ^ 32)
    (h : FileChain g s.disk file.fatDir.dirFstClusLO l)
    (hsize : SizeFits g file.fatDir.dirFileSize l.length)
    (hp : file.cursor ≤ file.fatDir.dirFileSize) (out : ℕ → UInt8) :
    ∃ s', fatFread g out n file s =
        some (fun x => if x < min n (file.fatDir.dirFileSize - file.cursor) then
            chainByte g s.disk l (file.cursor + x) else out x,
          { file with
            cursor := file.cursor + min n (file.fatDir.dirFileSize - file.cursor) }, s') ∧
      Looked s s' := by
  have hbytes := h.bytes_lt hg
  have hend := hsize.enough
  obtain ⟨s', hloop, hlooked⟩ := freadLoop_spec hg file hn hp (a := 0) out
    (s := fatInvalidateCache s) h (.inl rfl) (h.length_lt hg).le
    (by rw [Nat.zero_add]; exact hsize.needed) (by rw [Nat.zero_add]; exact hend)
    (by rw [Nat.zero_add]; exact hbytes)
  refine ⟨s', ?_, (looked_invalidate s).trans hlooked⟩
  have hcursor : u32 (file.cursor + min n (file.fatDir.dirFileSize - file.cursor)) =
      file.cursor + min n (file.fatDir.dirFileSize - file.cursor) := u32_of_lt (by omega)
  have hzero : min n (0 - file.cursor) = 0 := by omega
  rw [hzero] at hloop
  unfold fatFread
  rw [hloop]
  simp [hcursor, fatInvalidateCache]

end Neos.Fat
