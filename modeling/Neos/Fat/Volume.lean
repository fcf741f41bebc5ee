import Mathlib.Tactic.Ring
import Neos.Fat.Model

/-!
# Volumes

A well-formed volume is laid out as reserved sectors, two copies of the FAT, and
data clusters.  Seen through `fatEntry` and `clusterByte`, a disk is a FAT and an
array of clusters; each access of `fat.c` changes one of them at one place.
-/

namespace Neos.Fat

open ByteRange

variable {g : Bpb} {s : State} {c c' k v : ℕ}

/-! ## Arithmetic of `unsigned int` -/

theorem u32_of_lt {n : ℕ} (h : n < 2 ^ 32) : u32 n = n := by
  rw [u32]
  exact Nat.mod_eq_of_lt h

theorem u32_lt (n : ℕ) : u32 n < 2 ^ 32 := by
  rw [u32]
  exact Nat.mod_lt _ (by decide)

theorem sub32_of_le {a b : ℕ} (h : b ≤ a) (ha : a < 2 ^ 32) : sub32 a b = a - b := by
  unfold sub32
  omega

/-! ## Layout -/

/-- The numbers of the data clusters lie between `2` and this bound. -/
def clusterLimit (g : Bpb) : ℕ :=
  2 + (g.diskSize - (g.rsvdSecCnt + 2 * g.fatSz32)) / g.secPerClus

/-- The number of a data cluster. -/
structure ValidCluster (g : Bpb) (c : ℕ) : Prop where
  ge_two : 2 ≤ c
  lt_limit : c < clusterLimit g

/-- A volume with 512-byte sectors and two FAT copies that have an entry for
every data cluster, on a disk whose byte offsets fit an `unsigned int`. -/
structure Geometry (g : Bpb) : Prop where
  bytsPerSec : g.bytsPerSec = 512
  numFats : g.numFats = 2
  secPerClus_pos : 0 < g.secPerClus
  secPerClus_lt : g.secPerClus < 2 ^ 8
  rsvdSecCnt_pos : 0 < g.rsvdSecCnt
  rsvdSecCnt_lt : g.rsvdSecCnt < 2 ^ 16
  fits : g.rsvdSecCnt + 2 * g.fatSz32 ≤ g.diskSize
  diskSize_le : g.diskSize * 512 ≤ 2 ^ 32
  fatHolds : clusterLimit g * 4 ≤ g.fatSz32 * 512

/-- The FAT entry of a cluster in the first FAT copy. -/
def fatEntry (g : Bpb) (disk : ℕ → UInt8) (c : ℕ) : ℕ :=
  leValue (readBytes disk (g.fatEntryOffset c) 4)

/-- A byte of a cluster. -/
def clusterByte (g : Bpb) (disk : ℕ → UInt8) (c k : ℕ) : UInt8 := disk (g.clusterOffset c + k)

namespace Geometry

theorem clusterSize_eq (hg : Geometry g) : g.clusterSize = g.secPerClus * 512 := by
  have hlt := hg.secPerClus_lt
  rw [Bpb.clusterSize, hg.bytsPerSec, u32_of_lt (by omega)]

theorem clusterSize_pos (hg : Geometry g) : 0 < g.clusterSize := by
  have hpos := hg.secPerClus_pos
  rw [hg.clusterSize_eq]
  omega

theorem clusterSize_lt (hg : Geometry g) : g.clusterSize < 2 ^ 17 := by
  have hlt := hg.secPerClus_lt
  rw [hg.clusterSize_eq]
  omega

theorem firstDataSector_eq (hg : Geometry g) :
    g.firstDataSector = g.rsvdSecCnt + 2 * g.fatSz32 := by
  have hfits := hg.fits
  have hdisk := hg.diskSize_le
  rw [Bpb.firstDataSector, hg.numFats, u32_of_lt (by omega)]

/-- The data clusters end within the disk. -/
theorem clusters_fit (hg : Geometry g) :
    g.firstDataSector * 512 + (clusterLimit g - 2) * g.clusterSize ≤ g.diskSize * 512 := by
  have hfits := hg.fits
  have hdiv := Nat.div_mul_le_self (g.diskSize - (g.rsvdSecCnt + 2 * g.fatSz32)) g.secPerClus
  have hcount : clusterLimit g - 2 =
      (g.diskSize - (g.rsvdSecCnt + 2 * g.fatSz32)) / g.secPerClus := by
    rw [clusterLimit, Nat.add_sub_cancel_left]
  rw [hg.firstDataSector_eq, hg.clusterSize_eq, hcount, ← mul_assoc]
  omega

/-- A data cluster ends where the next one begins, at most where the last one
ends. -/
theorem cluster_end (hc : ValidCluster g c) :
    (c - 2) * g.clusterSize + g.clusterSize ≤ (clusterLimit g - 2) * g.clusterSize := by
  obtain ⟨htwo, hlimit⟩ := hc
  rw [← Nat.succ_mul]
  exact Nat.mul_le_mul_right _ (by omega)

theorem cluster_before (h : c < c') (htwo : 2 ≤ c) :
    (c - 2) * g.clusterSize + g.clusterSize ≤ (c' - 2) * g.clusterSize := by
  rw [← Nat.succ_mul]
  exact Nat.mul_le_mul_right _ (by omega)

theorem clusterOffset_eq (hg : Geometry g) (hc : ValidCluster g c) :
    g.clusterOffset c = g.firstDataSector * 512 + (c - 2) * g.clusterSize := by
  have hfit := hg.clusters_fit
  have hend := cluster_end hc
  have hpos := hg.clusterSize_pos
  have hdisk := hg.diskSize_le
  have hlimit : clusterLimit g ≤ 2 ^ 32 := by
    have hholds := hg.fatHolds
    have hfits := hg.fits
    omega
  have hc2 := hc.ge_two
  have hclt := hc.lt_limit
  have hsub : sub32 c 2 = c - 2 := sub32_of_le hc2 (by omega)
  have hsize : (c - 2) * g.clusterSize = (c - 2) * g.secPerClus * 512 := by
    rw [hg.clusterSize_eq, mul_assoc]
  rw [Bpb.clusterOffset, hsub, hg.bytsPerSec]
  rw [u32_of_lt (n := g.firstDataSector + (c - 2) * g.secPerClus) (by omega),
    u32_of_lt (by omega)]
  omega

theorem cluster_lt (hg : Geometry g) (hc : ValidCluster g c) :
    g.clusterOffset c + g.clusterSize ≤ 2 ^ 32 := by
  have hfit := hg.clusters_fit
  have hend := cluster_end hc
  have hdisk := hg.diskSize_le
  have hoffset := hg.clusterOffset_eq hc
  omega

theorem fatEntryOffset_of_lt (hg : Geometry g) (hc : c < 2 ^ 28) :
    g.fatEntryOffset c = g.rsvdSecCnt * 512 + c * 4 := by
  have hrsvd := hg.rsvdSecCnt_lt
  have hlt : g.rsvdSecCnt * 512 + c * 4 < 2 ^ 32 := by omega
  rw [Bpb.fatEntryOffset, hg.bytsPerSec, u32_of_lt hlt]

theorem clusterLimit_lt (hg : Geometry g) : clusterLimit g < 2 ^ 24 := by
  have hdisk := hg.diskSize_le
  have hdiv := Nat.div_le_self (g.diskSize - (g.rsvdSecCnt + 2 * g.fatSz32)) g.secPerClus
  rw [clusterLimit]
  omega

theorem fatEntryOffset_eq (hg : Geometry g) (hc : c < clusterLimit g) :
    g.fatEntryOffset c = g.rsvdSecCnt * 512 + c * 4 := by
  have hlimit := hg.clusterLimit_lt
  exact hg.fatEntryOffset_of_lt (by omega)

/-- A FAT entry lies in the first FAT copy. -/
theorem fatEntry_end (hg : Geometry g) (hc : c < clusterLimit g) :
    g.rsvdSecCnt * 512 + c * 4 + 4 ≤ (g.rsvdSecCnt + g.fatSz32) * 512 := by
  have hholds := hg.fatHolds
  omega

end Geometry

theorem ValidCluster.lt (hg : Geometry g) (hc : ValidCluster g c) : c < 2 ^ 24 :=
  hc.lt_limit.trans hg.clusterLimit_lt

/-! ## What the accesses change -/

@[simp] theorem State.write_taken (s : State) (offset : ℕ) (bytes : List UInt8) :
    (s.write offset bytes).taken = s.taken := by
  rw [State.write]

@[simp] theorem fatWriteFatEntry_taken (g : Bpb) (s : State) (c v : ℕ) :
    (fatWriteFatEntry g s c v).taken = s.taken := by
  rw [fatWriteFatEntry, State.write_taken, State.write_taken]

@[simp] theorem fatClearCluster_taken (g : Bpb) (s : State) (c : ℕ) :
    (fatClearCluster g s c).taken = s.taken := by
  rw [fatClearCluster, State.write_taken]

/-- Two disks with the same first FAT copy have the same FAT entries. -/
theorem fatEntry_congr {disk disk' : ℕ → UInt8}
    (h : ∀ i, i < 4 → disk (g.fatEntryOffset c + i) = disk' (g.fatEntryOffset c + i)) :
    fatEntry g disk c = fatEntry g disk' c := by
  rw [fatEntry, fatEntry, readBytes_congr h]

theorem secondCopy_eq (hg : Geometry g) (hc : c < clusterLimit g) :
    u32 (g.fatEntryOffset c + u32 (g.fatSz32 * g.bytsPerSec)) =
      (g.rsvdSecCnt + g.fatSz32) * 512 + c * 4 := by
  have hholds := hg.fatHolds
  have hfits := hg.fits
  have hdisk := hg.diskSize_le
  rw [hg.fatEntryOffset_eq hc, hg.bytsPerSec, u32_of_lt (n := g.fatSz32 * 512) (by omega),
    u32_of_lt (by omega)]
  omega

/-- Writing a FAT entry changes this entry. -/
theorem fatEntry_fatWriteFatEntry (hg : Geometry g) (hc : c < clusterLimit g)
    (hc' : c' < clusterLimit g) (hv : v < 2 ^ 32) :
    fatEntry g (fatWriteFatEntry g s c v).disk c' =
      if c' = c then v else fatEntry g s.disk c' := by
  have hend := hg.fatEntry_end hc'
  have hfirst := hg.fatEntryOffset_eq hc
  have hfirst' := hg.fatEntryOffset_eq hc'
  have hsecond := secondCopy_eq hg hc
  unfold fatEntry fatWriteFatEntry State.write
  simp only []
  rw [readBytes_writeBytes_of_disjoint (by rw [length_leBytes]; omega)]
  split
  · rename_i heq
    have hself := readBytes_writeBytes_self s.disk (g.fatEntryOffset c) (leBytes 4 v)
    rw [length_leBytes] at hself
    rw [heq, hself, leValue_leBytes]
    exact Nat.mod_eq_of_lt hv
  · rw [readBytes_writeBytes_of_disjoint (by rw [length_leBytes]; omega)]

/-- Writing a FAT entry leaves the clusters alone. -/
theorem clusterByte_fatWriteFatEntry (hg : Geometry g) (hc : c < clusterLimit g)
    (hc' : ValidCluster g c') :
    clusterByte g (fatWriteFatEntry g s c v).disk c' k = clusterByte g s.disk c' k := by
  have hend := hg.fatEntry_end hc
  have hfirst := hg.fatEntryOffset_eq hc
  have hsecond := secondCopy_eq hg hc
  have hdata := hg.clusterOffset_eq hc'
  have hsector := hg.firstDataSector_eq
  unfold clusterByte fatWriteFatEntry State.write
  simp only []
  rw [writeBytes_outside (by rw [length_leBytes]; omega),
    writeBytes_outside (by rw [length_leBytes]; omega)]

/-- Writing into a cluster leaves the FAT alone. -/
theorem fatEntry_writeCluster (hg : Geometry g) (hc : ValidCluster g c)
    (hc' : c' < clusterLimit g) (bs : List UInt8) :
    fatEntry g (s.write (g.clusterOffset c + k) bs).disk c' = fatEntry g s.disk c' := by
  have hend := hg.fatEntry_end hc'
  have hfirst := hg.fatEntryOffset_eq hc'
  have hdata := hg.clusterOffset_eq hc
  have hsector := hg.firstDataSector_eq
  apply fatEntry_congr
  intro i hi
  exact writeBytes_outside (by omega)

/-- Writing into a cluster changes the bytes written there. -/
theorem clusterByte_writeCluster (hg : Geometry g) (hc : ValidCluster g c)
    (hc' : ValidCluster g c') {bs : List UInt8} {j : ℕ} (hk : k + bs.length ≤ g.clusterSize)
    (hj : j < g.clusterSize) :
    clusterByte g (s.write (g.clusterOffset c + k) bs).disk c' j =
      if c' = c ∧ k ≤ j ∧ j < k + bs.length then bs.getD (j - k) 0
      else clusterByte g s.disk c' j := by
  have hdata := hg.clusterOffset_eq hc
  have hdata' := hg.clusterOffset_eq hc'
  unfold clusterByte State.write
  simp only []
  rcases Nat.lt_trichotomy c' c with hlt | rfl | hgt
  · have hbefore := Geometry.cluster_before (g := g) hlt hc'.ge_two
    rw [if_neg (by omega), writeBytes_outside (by omega)]
  · split
    · rename_i hin
      have hpos : g.clusterOffset c' + j = g.clusterOffset c' + k + (j - k) := by omega
      rw [hpos, writeBytes_inside (by omega)]
    · exact writeBytes_outside (by omega)
  · have hbefore := Geometry.cluster_before (g := g) hgt hc.ge_two
    rw [if_neg (by omega), writeBytes_outside (by omega)]

/-- Clearing a cluster is a write at its start. -/
theorem fatClearCluster_eq (g : Bpb) (s : State) (c : ℕ) :
    fatClearCluster g s c =
      s.write (g.clusterOffset c + 0) (List.replicate g.clusterSize 0) := by
  rw [fatClearCluster, Nat.add_zero]

theorem fatEntry_fatClearCluster (hg : Geometry g) (hc : ValidCluster g c)
    (hc' : c' < clusterLimit g) :
    fatEntry g (fatClearCluster g s c).disk c' = fatEntry g s.disk c' := by
  rw [fatClearCluster_eq, fatEntry_writeCluster hg hc hc']

/-- Clearing a cluster makes its bytes zero. -/
theorem clusterByte_fatClearCluster (hg : Geometry g) (hc : ValidCluster g c)
    (hc' : ValidCluster g c') {j : ℕ} (hj : j < g.clusterSize) :
    clusterByte g (fatClearCluster g s c).disk c' j =
      if c' = c then 0 else clusterByte g s.disk c' j := by
  have hzero : (List.replicate g.clusterSize (0 : UInt8)).getD j 0 = 0 := by
    rw [List.getD_eq_getElem _ _ (by rwa [List.length_replicate]), List.getElem_replicate]
  rw [fatClearCluster_eq, clusterByte_writeCluster hg hc hc' (by rw [List.length_replicate]; omega)
    hj, List.length_replicate, Nat.sub_zero, hzero]
  by_cases h : c' = c
  · rw [if_pos ⟨h, Nat.zero_le _, by omega⟩, if_pos h]
  · rw [if_neg (fun hall => h hall.1), if_neg h]

/-! ## Clearing the end-of-chain mark

`fat_fwrite` clears the "cluster" `0x0FFFFFFF` when it marks the end of a chain.
Its address wraps around to the third cluster before the data area. -/

theorem clusterOffset_mark (hg : Geometry g) (h : 3 * g.secPerClus ≤ g.firstDataSector) :
    g.clusterOffset 0x0FFFFFFF = (g.firstDataSector - 3 * g.secPerClus) * 512 := by
  have hsector := hg.firstDataSector_eq
  have hfits := hg.fits
  have hdisk := hg.diskSize_le
  have hpos := hg.secPerClus_pos
  have hsub : sub32 0x0FFFFFFF 2 = 2 ^ 28 - 3 := by decide +kernel
  have hwrap : (g.firstDataSector + (2 ^ 28 - 3) * g.secPerClus) * 512 =
      (g.firstDataSector - 3 * g.secPerClus) * 512 + 2 ^ 32 * (32 * g.secPerClus) := by omega
  rw [Bpb.clusterOffset, hsub, hg.bytsPerSec, u32, u32, Nat.mul_mod, Nat.mod_mod, ← Nat.mul_mod,
    hwrap, Nat.add_mul_mod_self_left]
  apply Nat.mod_eq_of_lt
  omega

/-- With FAT copies of three clusters or more, the second copy takes the
damage. -/
theorem fatEntry_clearMark (hg : Geometry g) (h : 3 * g.secPerClus ≤ g.fatSz32)
    (hc' : c' < clusterLimit g) :
    fatEntry g (fatClearCluster g s 0x0FFFFFFF).disk c' = fatEntry g s.disk c' := by
  have hsector := hg.firstDataSector_eq
  have hend := hg.fatEntry_end hc'
  have hfirst := hg.fatEntryOffset_eq hc'
  have hmark := clusterOffset_mark hg (by omega)
  apply fatEntry_congr
  intro i hi
  exact writeBytes_outside (by omega)

theorem clusterByte_clearMark (hg : Geometry g) (h : 3 * g.secPerClus ≤ g.fatSz32)
    (hc' : ValidCluster g c') :
    clusterByte g (fatClearCluster g s 0x0FFFFFFF).disk c' k = clusterByte g s.disk c' k := by
  have hsector := hg.firstDataSector_eq
  have hdata := hg.clusterOffset_eq hc'
  have hsize := hg.clusterSize_eq
  have hmark := clusterOffset_mark hg (by omega)
  apply writeBytes_outside
  rw [List.length_replicate]
  omega

end Neos.Fat
