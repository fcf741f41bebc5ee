import Neos.Fat.Search

/-!
# What `fat_init` accepts

`fat_init` looks at the first byte of the boot sector only: the comparison of the
label never gives the value it is tested for, and the parameters are taken as
they are.  Every access to the FAT divides by the sector size and reads from a
cache of 512 bytes.
-/

namespace Neos.Fat

open ByteRange

/-- The label of the file system in the boot sector. -/
def fileSystemLabel (disk : ℕ → UInt8) : List UInt8 := readBytes disk 82 8

/-- The access to the FAT entry of a cluster through the cache is defined: the
sector size it divides by is not zero, and the four bytes lie in the cache. -/
structure EntryInCache (g : Bpb) (cluster : ℕ) : Prop where
  divisor : g.bytsPerSec ≠ 0
  inside : g.fatEntryOffset cluster % g.bytsPerSec + 4 ≤ sizeofFatCache

/-- A sector size at which no FAT entry reaches over the end of the cache. -/
def FitsCache (bytsPerSec : ℕ) : Prop := (1 ≤ bytsPerSec ∧ bytsPerSec ≤ 510) ∨ bytsPerSec = 512

section

variable {g : Bpb} {cluster : ℕ}

/-- An entry lies at an even offset in a sector of even size, and at a multiple
of four in a sector of 512 bytes. -/
theorem fatEntryOffset_mod_le (h : FitsCache g.bytsPerSec) :
    g.fatEntryOffset cluster % g.bytsPerSec ≤ 508 := by
  have hbase : g.fatEntryOffset cluster = (g.rsvdSecCnt * g.bytsPerSec + cluster * 4) % 2 ^ 32 := by
    rw [Bpb.fatEntryOffset]
    unfold u32
    rfl
  rw [hbase]
  rcases h with ⟨hpos, hle⟩ | h512
  · by_cases h510 : g.bytsPerSec = 510
    · rw [h510]
      omega
    · have hlt := Nat.mod_lt ((g.rsvdSecCnt * g.bytsPerSec + cluster * 4) % 2 ^ 32) hpos
      omega
  · rw [h512]
    omega

/-- At the other sizes the entry of cluster 383 or of cluster 128 reaches over
the end. -/
theorem exists_entry_outside (hsize : g.bytsPerSec < 2 ^ 16) (hrsvd : g.rsvdSecCnt < 2 ^ 16)
    (hpos : g.bytsPerSec ≠ 0) (h : ¬ FitsCache g.bytsPerSec) :
    ∃ cluster < 2 ^ 32, sizeofFatCache < g.fatEntryOffset cluster % g.bytsPerSec + 4 := by
  have hprod : g.rsvdSecCnt * g.bytsPerSec ≤ (2 ^ 16 - 1) * (2 ^ 16 - 1) :=
    Nat.mul_le_mul (by omega) (by omega)
  have hbase : ∀ c, c ≤ 383 → g.fatEntryOffset c = g.rsvdSecCnt * g.bytsPerSec + c * 4 := by
    intro c hc
    rw [Bpb.fatEntryOffset, u32_of_lt (by omega)]
  obtain ⟨hsmall, h512⟩ := not_or.mp h
  by_cases h511 : g.bytsPerSec = 511
  · refine ⟨383, by decide, ?_⟩
    rw [hbase 383 le_rfl, h511, sizeofFatCache]
    omega
  · refine ⟨128, by decide, ?_⟩
    rw [hbase 128 (by decide), Nat.mul_add_mod', Nat.mod_eq_of_lt (by omega), sizeofFatCache]
    omega

/-- All entries can be accessed exactly at the sizes that fit the cache. -/
theorem entryInCache_iff (hsize : g.bytsPerSec < 2 ^ 16) (hrsvd : g.rsvdSecCnt < 2 ^ 16) :
    (∀ cluster < 2 ^ 32, EntryInCache g cluster) ↔ FitsCache g.bytsPerSec := by
  constructor
  · intro hall
    by_contra hnot
    obtain ⟨c, hc, hout⟩ := exists_entry_outside hsize hrsvd (hall 0 (by decide)).divisor hnot
    exact absurd (hall c hc).inside (by omega)
  · intro h cluster _
    refine ⟨?_, ?_⟩
    · rcases h with ⟨hpos, -⟩ | h512
      · omega
      · omega
    · have hmod : g.fatEntryOffset cluster % g.bytsPerSec ≤ 508 := fatEntryOffset_mod_le h
      rw [sizeofFatCache]
      omega

end

theorem bytsPerSec_ofDisk_lt (disk : ℕ → UInt8) : (Bpb.ofDisk disk).bytsPerSec < 2 ^ 16 := by
  have := leValue_lt (readBytes disk 11 2)
  rwa [length_readBytes] at this

theorem rsvdSecCnt_ofDisk_lt (disk : ℕ → UInt8) : (Bpb.ofDisk disk).rsvdSecCnt < 2 ^ 16 := by
  have := leValue_lt (readBytes disk 14 2)
  rwa [length_readBytes] at this

/-- The geometry that `fat_init` accepts is the one in the boot sector. -/
theorem fatInit_bpb {disk : ℕ → UInt8} {behind : List UInt8} {volume : Bpb × FatFile}
    (h : fatInit disk behind = some volume) : volume.1 = Bpb.ofDisk disk := by
  unfold fatInit at h
  dsimp only at h
  split at h
  · cases h
  · split at h
    · cases h
    · rw [← Option.some_inj.mp h]

/-- What `fat_init` accepts is a FAT32 volume whose entries can be accessed,
exactly when it refuses the volume for its first byte, or when the volume is one
and its sector size fits the cache. -/
theorem fatInit_accepts_iff (disk : ℕ → UInt8) (behind : List UInt8) :
    (∀ volume, fatInit disk behind = some volume →
        fileSystemLabel disk = fat32Label ∧ ∀ cluster < 2 ^ 32, EntryInCache volume.1 cluster) ↔
      (disk 0 ≠ 0xEB ∧ disk 0 ≠ 0xE9) ∨
        (fileSystemLabel disk = fat32Label ∧ FitsCache (leValue (readBytes disk 11 2))) := by
  have hentries := entryInCache_iff (bytsPerSec_ofDisk_lt disk) (rsvdSecCnt_ofDisk_lt disk)
  have hsome := fatInit_isSome_iff disk behind
  by_cases hjump : disk 0 = 0xEB ∨ disk 0 = 0xE9
  · obtain ⟨volume, hvolume⟩ := Option.isSome_iff_exists.mp (hsome.mpr hjump)
    have hbpb := fatInit_bpb hvolume
    have hgo : ¬ (disk 0 ≠ 0xEB ∧ disk 0 ≠ 0xE9) := by
      rintro ⟨hEB, hE9⟩
      exact hjump.elim hEB hE9
    rw [or_iff_right hgo]
    constructor
    · intro hall
      obtain ⟨hlabel, hcache⟩ := hall volume hvolume
      rw [hbpb] at hcache
      exact ⟨hlabel, hentries.mp hcache⟩
    · rintro ⟨hlabel, hfits⟩ volume' hvolume'
      rw [fatInit_bpb hvolume']
      exact ⟨hlabel, hentries.mpr hfits⟩
  · have hnone : ∀ volume, fatInit disk behind ≠ some volume := by
      intro volume hvolume
      exact hjump (hsome.mp (Option.isSome_iff_exists.mpr ⟨volume, hvolume⟩))
    refine iff_of_true (fun volume hvolume => absurd hvolume (hnone volume)) (Or.inl ?_)
    exact not_or.mp hjump

/-- The boot sector of a FAT16 volume with sectors of 1024 bytes. -/
def fat16Image : ℕ → UInt8 := fun i =>
  if i = 0 then 0xEB
  else if i = 12 then 4
  else if 82 ≤ i ∧ i < 90 then [0x46, 0x41, 0x54, 0x31, 0x36, 0x20, 0x20, 0x20].getD (i - 82) 0
  else 0

/-- It is accepted, and the entry of cluster 128 is read behind the cache. -/
theorem fatInit_accepts_fat16 :
    (fatInit fat16Image []).isSome = true ∧ fileSystemLabel fat16Image ≠ fat32Label ∧
      (Bpb.ofDisk fat16Image).bytsPerSec = 1024 ∧
      (Bpb.ofDisk fat16Image).fatEntryOffset 128 % 1024 + 4 = 516 := by
  decide +kernel

end Neos.Fat
