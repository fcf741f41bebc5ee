import Neos.Fat.Operations
import Neos.Library.PartialSteps

/-!
# The FAT cache shared by all disks

There is one cached sector for all disks.  It is known by its number only, and no write
updates it.  Every loop that reads through it begins by invalidating it, and neither writes
nor turns to another disk before it ends, so every cached read returns the entry that the
disk holds at that moment.
-/

namespace Neos.Fat

open ByteRange PartialSteps

variable {g : Bpb} {s s' : State} {file : FatFile} {c : ℕ}

/-! ## One read -/

/-- Every cached read has returned the entry on the disk. -/
def State.Coherent (s : State) : Prop := ∀ p ∈ s.cachedReads, p.1 = p.2

/-- With sectors of 512 bytes no entry crosses the end of its sector, and no sector has
the number that stands for none. -/
theorem fatReadFatEntry_coherent (hbps : g.bytsPerSec = 512) (hs : CacheHolds g s)
    (hc : s.Coherent) (c : ℕ) :
    CacheHolds g (fatReadFatEntry g s c true).2 ∧ (fatReadFatEntry g s c true).2.Coherent := by
  have hlt : g.fatEntryOffset c < 2 ^ 32 := u32_lt _
  have haligned : g.fatEntryOffset c % 4 = 0 := by
    unfold Bpb.fatEntryOffset u32
    rw [hbps]
    omega
  have hsector : g.fatEntryOffset c / g.bytsPerSec * g.bytsPerSec < 2 ^ 32 := by
    rw [hbps]
    omega
  obtain ⟨-, -, hholds, hcache⟩ := loadSector_holds hs (g.fatEntryOffset c / g.bytsPerSec)
    (by rw [hbps]; omega) hsector
  have hvalue : cachedEntry g s c = fatEntry g s.disk c :=
    cachedEntry_eq (by rw [hbps]; omega) hcache
  have hlog : (loadSector g s (g.fatEntryOffset c / g.bytsPerSec)).cachedReads =
      s.cachedReads := by
    unfold loadSector
    split <;> rfl
  rw [fatReadFatEntry_eq]
  refine ⟨hholds, ?_⟩
  intro p hp
  rcases List.mem_cons.mp hp with rfl | hold
  · exact hvalue
  · rw [hlog] at hold
    exact hc p hold

/-! ## The loops -/

/-- The state after some rounds of `fat_fread` or `fat_file_cluster_count`, whether the loop
has ended by then or not. -/
def chainRounds (g : Bpb) : ℕ → ℕ → State → State
  | 0, _, s => s
  | rounds + 1, cluster, s =>
      if cluster < 2 then s
      else
        let (nextCluster, s) := fatReadFatEntry g s cluster true
        if nextCluster = 0 ∨ nextCluster = badCluster ∨ isLast nextCluster then s
        else chainRounds g rounds (nextCluster % 2 ^ 28) s

/-- The state after some rounds of the search for a free cluster. -/
def searchRounds (g : Bpb) : ℕ → ℕ → State → State
  | 0, _, s => s
  | rounds + 1, freeCluster, s =>
      let (value, s) := fatReadFatEntry g s freeCluster true
      if value = 0 then s
      else
        let freeCluster := u32 (freeCluster + 1)
        if u32 (freeCluster * g.secPerClus) ≥ g.diskSize then s
        else searchRounds g rounds freeCluster s

theorem chainRounds_coherent (hbps : g.bytsPerSec = 512) :
    ∀ (rounds c : ℕ) {s : State}, CacheHolds g s → s.Coherent → (chainRounds g rounds c s).Coherent
  | 0, _, _, _, hc => hc
  | rounds + 1, c, s, hs, hc => by
      obtain ⟨hs', hc'⟩ := fatReadFatEntry_coherent hbps hs hc c
      unfold chainRounds
      split
      · exact hc
      dsimp only
      split
      · exact hc'
      · exact chainRounds_coherent hbps rounds _ hs' hc'

theorem searchRounds_coherent (hbps : g.bytsPerSec = 512) :
    ∀ (rounds c : ℕ) {s : State}, CacheHolds g s → s.Coherent →
      (searchRounds g rounds c s).Coherent
  | 0, _, _, _, hc => hc
  | rounds + 1, c, s, hs, hc => by
      obtain ⟨hs', hc'⟩ := fatReadFatEntry_coherent hbps hs hc c
      unfold searchRounds
      dsimp only
      split
      · exact hc'
      split
      · exact hc'
      · exact searchRounds_coherent hbps rounds _ hs' hc'

theorem freadLoop_state :
    ∀ {rounds c offset total n : ℕ} {out : ℕ → UInt8} {s : State} {r : (ℕ → UInt8) × ℕ × State},
      freadLoop g file n rounds c offset total out s = some r → r.2.2 = chainRounds g rounds c s
  | rounds + 1, c, offset, total, n, out, s, r, h => by
      rw [freadLoop] at h
      unfold chainRounds
      split at h
      · rename_i hlow
        rw [if_pos hlow, ← Option.some_inj.mp h]
      · rename_i hlow
        rw [if_neg hlow]
        dsimp only at h ⊢
        split at h
        · rename_i hzero
          rw [if_pos (.inl hzero), ← Option.some_inj.mp h]
        split at h
        · rename_i hbad
          rw [if_pos (.inr (.inl hbad)), ← Option.some_inj.mp h]
        split at h
        · rename_i hlast
          rw [if_pos (.inr (.inr hlast)), ← Option.some_inj.mp h]
        · rename_i hzero hbad hlast
          rw [if_neg (not_or.mpr ⟨hzero, not_or.mpr ⟨hbad, hlast⟩⟩)]
          exact freadLoop_state h

theorem clusterCountLoop_state :
    ∀ {rounds c count : ℕ} {s : State} {r : ℕ × State},
      clusterCountLoop g rounds c count s = some r → r.2 = chainRounds g rounds c s
  | rounds + 1, c, count, s, r, h => by
      rw [clusterCountLoop] at h
      unfold chainRounds
      split at h
      · rename_i hlow
        rw [if_pos hlow, ← Option.some_inj.mp h]
      · rename_i hlow
        rw [if_neg hlow]
        dsimp only at h ⊢
        split at h
        · rename_i hbad
          rw [if_pos (.inr (.inl hbad)), ← Option.some_inj.mp h]
        split at h
        · rename_i hzero
          rw [if_pos (.inl hzero), ← Option.some_inj.mp h]
        split at h
        · rename_i hlast
          rw [if_pos (.inr (.inr hlast)), ← Option.some_inj.mp h]
        · rename_i hbad hzero hlast
          rw [if_neg (not_or.mpr ⟨hzero, not_or.mpr ⟨hbad, hlast⟩⟩)]
          exact clusterCountLoop_state h

theorem findFreeCluster_cachedReads :
    ∀ {rounds c : ℕ} {s : State} {r : Option ℕ × State}, findFreeCluster g rounds c s = some r →
      r.2.cachedReads = (searchRounds g rounds c s).cachedReads
  | rounds + 1, c, s, r, h => by
      rw [findFreeCluster] at h
      unfold searchRounds
      dsimp only at h ⊢
      split at h
      · rename_i hfree
        rw [if_pos hfree, ← Option.some_inj.mp h]
      · rename_i hused
        rw [if_neg hused]
        split at h
        · rename_i hend
          rw [if_pos hend, ← Option.some_inj.mp h]
        · rename_i hmore
          rw [if_neg hmore]
          exact findFreeCluster_cachedReads h

/-- Whatever the cache held before, a loop that begins by invalidating it reads what is on
the disk, even when it never ends. -/
theorem rounds_coherent (hbps : g.bytsPerSec = 512) (hc : s.Coherent) (rounds c : ℕ) :
    (chainRounds g rounds c (fatInvalidateCache s)).Coherent ∧
      (searchRounds g rounds c (fatInvalidateCache s)).Coherent :=
  ⟨chainRounds_coherent hbps _ _ (cacheHolds_invalidate g s) hc,
    searchRounds_coherent hbps _ _ (cacheHolds_invalidate g s) hc⟩

theorem stable_coherent (hbps : g.bytsPerSec = 512) : Stable g State.Coherent where
  write _ _ hc := hc
  fread hc h := by
    rw [freadLoop_state h]
    exact (rounds_coherent hbps hc _ _).1
  count hc h := by
    rw [clusterCountLoop_state h]
    exact (rounds_coherent hbps hc _ _).1
  search hc h := by
    unfold State.Coherent
    rw [findFreeCluster_cachedReads h]
    exact (rounds_coherent hbps hc _ _).2

/-! ## Runs on several disks -/

/-- A call of an operation of `fat.h`, with any handle. -/
inductive Operation
  | fread (dataOut : ℕ → UInt8) (dataSize : ℕ) (file : FatFile)
  | fwrite (dataIn : ℕ → UInt8) (dataSize : ℕ) (file : FatFile)
  | fileClusterCount (file : FatFile)
  | readdir (parentDir : FatFile)
  | opendir (rootDir : FatFile) (path : List UInt8)
  | fopen (uninitialized : DirEntry) (rootDir : FatFile) (path : List UInt8) (mode : OpenMode)
  | createFile (uninitialized : DirEntry) (rootDir : FatFile) (path : List UInt8)
      (attributes : UInt8)
  | createDir (uninitialized : DirEntry) (rootDir : FatFile) (path : List UInt8)
      (attributes : UInt8)
  | fremove (uninitialized : DirEntry) (file : FatFile)
  | dirremove (uninitialized : State → DirEntry) (depth : ℕ) (dir : FatFile)
  | remove (uninitialized : State → DirEntry) (depth : ℕ) (rootDir : FatFile) (path : List UInt8)
      (isFile : Bool)

/-- The state after an operation that returns. -/
def Operation.perform (g : Bpb) : Operation → State → Option State
  | .fread dataOut dataSize file, s => (fatFread g dataOut dataSize file s).map fun r => r.2.2
  | .fwrite dataIn dataSize file, s => (fatFwrite g dataIn dataSize file s).map fun r => r.2.2
  | .fileClusterCount file, s => (fatFileClusterCount g file s).map fun r => r.2
  | .readdir parentDir, s => (fatReaddir g parentDir s).map fun r => r.2
  | .opendir rootDir path, s => (fatOpendir g rootDir path s).map fun r => r.2.2
  | .fopen uninitialized rootDir path mode, s =>
      (fatFopen g uninitialized rootDir path mode s).map fun r => r.2.2
  | .createFile uninitialized rootDir path attributes, s =>
      (fatCreateFile g uninitialized rootDir path attributes s).map fun r => r.2.2
  | .createDir uninitialized rootDir path attributes, s =>
      (fatCreateDir g uninitialized rootDir path attributes s).map fun r => r.2.2
  | .fremove uninitialized file, s => (fatFremove g uninitialized file s).map fun r => r.2
  | .dirremove uninitialized depth dir, s =>
      (fatDirremove g uninitialized depth dir s).map fun r => r.2
  | .remove uninitialized depth rootDir path isFile, s =>
      (fatRemove g uninitialized depth path isFile rootDir s).map fun r => r.2.2

/-- What is kept by writes and by the loops that use the cache is kept by every
operation. -/
theorem Stable.perform {P : State → Prop} (h : Stable g P) (op : Operation) (hs : P s)
    (hcall : op.perform g s = some s') : P s' := by
  cases op with
  | fread dataOut dataSize file =>
      obtain ⟨r, hr, rfl⟩ := Option.map_eq_some_iff.mp hcall
      exact h.fatFread hs hr
  | fwrite dataIn dataSize file =>
      obtain ⟨r, hr, rfl⟩ := Option.map_eq_some_iff.mp hcall
      exact h.fatFwrite hs hr
  | fileClusterCount file =>
      obtain ⟨r, hr, rfl⟩ := Option.map_eq_some_iff.mp hcall
      exact h.fatFileClusterCount hs hr
  | readdir parentDir =>
      obtain ⟨r, hr, rfl⟩ := Option.map_eq_some_iff.mp hcall
      exact h.fatReaddir hs hr
  | opendir rootDir path =>
      obtain ⟨r, hr, rfl⟩ := Option.map_eq_some_iff.mp hcall
      exact h.fatOpendir hs hr
  | fopen uninitialized rootDir path mode =>
      obtain ⟨r, hr, rfl⟩ := Option.map_eq_some_iff.mp hcall
      exact h.fatFopen hs hr
  | createFile uninitialized rootDir path attributes =>
      obtain ⟨r, hr, rfl⟩ := Option.map_eq_some_iff.mp hcall
      exact h.fatCreateFile hs hr
  | createDir uninitialized rootDir path attributes =>
      obtain ⟨r, hr, rfl⟩ := Option.map_eq_some_iff.mp hcall
      exact h.fatCreateDir hs hr
  | fremove uninitialized file =>
      obtain ⟨r, hr, rfl⟩ := Option.map_eq_some_iff.mp hcall
      exact h.fatFremove hs hr
  | dirremove uninitialized depth dir =>
      obtain ⟨r, hr, rfl⟩ := Option.map_eq_some_iff.mp hcall
      exact h.dirremoveWith (h.fatRemove depth) hs hr
  | remove uninitialized depth rootDir path isFile =>
      obtain ⟨r, hr, rfl⟩ := Option.map_eq_some_iff.mp hcall
      exact h.fatRemove depth hs hr

/-- Some disks, and what `fat.c` keeps for all of them together. -/
structure World (ι : Type) where
  disk : ι → ℕ → UInt8
  fatCache : ℕ → UInt8
  fatCacheSector : ℕ
  taken : List ℕ
  cachedReads : List (ℕ × ℕ)

namespace World

variable {ι : Type} {w w' : World ι}

/-- What an operation on a disk sees. -/
def on (w : World ι) (i : ι) : State :=
  { disk := w.disk i
    fatCache := w.fatCache
    fatCacheSector := w.fatCacheSector
    taken := w.taken
    cachedReads := w.cachedReads }

/-- Every cached read, on whatever disk, has returned the entry on that disk. -/
def Coherent (w : World ι) : Prop := ∀ p ∈ w.cachedReads, p.1 = p.2

variable [DecidableEq ι]

/-- An operation on one of the disks. -/
def step (volume : ι → Bpb) (w : World ι) (call : ι × Operation) : Option (World ι) := do
  let s ← call.2.perform (volume call.1) (w.on call.1)
  return {
    disk := Function.update w.disk call.1 s.disk
    fatCache := s.fatCache
    fatCacheSector := s.fatCacheSector
    taken := s.taken
    cachedReads := s.cachedReads }

theorem step_coherent {volume : ι → Bpb} (hbps : ∀ i, (volume i).bytsPerSec = 512)
    (hw : w.Coherent) {call : ι × Operation} (h : w.step volume call = some w') : w'.Coherent := by
  obtain ⟨s, hcall, hrest⟩ := Option.bind_eq_some_iff.mp h
  have hon : (w.on call.1).Coherent := hw
  have hs : s.Coherent := (stable_coherent (hbps call.1)).perform call.2 hon hcall
  rw [← Option.some_inj.mp hrest]
  exact hs

theorem throughout_coherent {volume : ι → Bpb} (hbps : ∀ i, (volume i).bytsPerSec = 512) :
    ∀ (calls : List (ι × Operation)) {w : World ι}, w.Coherent →
      Throughout (step volume) Coherent w calls
  | [], _, hw => throughout_nil.mpr hw
  | call :: calls, w, hw => by
      intro pre w' hpre hrun
      rcases List.prefix_cons_iff.mp hpre with rfl | ⟨pre', rfl, hpre'⟩
      · cases hrun
        exact hw
      · obtain ⟨w₁, hfirst, hrest⟩ := Option.bind_eq_some_iff.mp hrun
        exact throughout_coherent hbps calls (step_coherent hbps hw hfirst) pre' w' hpre' hrest

end World

/-- On disks with sectors of 512 bytes, whatever the cache holds at first, every cached read
of every run returns what an uncached read would; and so does every cached read of a loop
that has not ended, in any state. -/
theorem cachedReads_coherent {ι : Type} [DecidableEq ι] (volume : ι → Bpb)
    (hbps : ∀ i, (volume i).bytsPerSec = 512) (w : World ι) (hw : w.cachedReads = [])
    (calls : List (ι × Operation)) :
    Throughout (World.step volume) World.Coherent w calls ∧
      ∀ (i : ι) (s : State), s.Coherent → ∀ rounds cluster,
        (chainRounds (volume i) rounds cluster (fatInvalidateCache s)).Coherent ∧
          (searchRounds (volume i) rounds cluster (fatInvalidateCache s)).Coherent := by
  have hcoherent : w.Coherent := by
    intro p hp
    rw [hw] at hp
    exact nomatch hp
  exact ⟨World.throughout_coherent hbps calls hcoherent,
    fun i s hs rounds cluster => rounds_coherent (hbps i) hs rounds cluster⟩

/-- A disk whose FAT is full and one whose FAT is free, and a cache that pretends to hold
the first sector of zeros. -/
def twoDisks : World Bool where
  disk := fun full => if full then fullDisk else fun _ => 0
  fatCache := fun _ => 0
  fatCacheSector := 1
  taken := []
  cachedReads := []

/-- The same cluster of both disks is looked at in turn. -/
def lookTwice : List (Bool × Operation) :=
  [(true, .fileClusterCount tinyFile), (false, .fileClusterCount tinyFile)]

theorem cachedReads_coherent_twoDisks :
    ∃ w, run (World.step fun _ => tinyVolume) twoDisks lookTwice = some w ∧
      w.cachedReads = [(0, 0), (0x0FFFFFFF, 0x0FFFFFFF)] ∧ w.Coherent := by
  have hreads : (run (World.step fun _ => tinyVolume) twoDisks lookTwice).map World.cachedReads =
      some [(0, 0), (0x0FFFFFFF, 0x0FFFFFFF)] := by decide +kernel
  obtain ⟨w, hrun, hread⟩ := Option.map_eq_some_iff.mp hreads
  exact ⟨w, hrun, hread, (cachedReads_coherent (fun _ => tinyVolume) (fun _ => rfl) twoDisks rfl
    lookTwice).1.last hrun⟩

end Neos.Fat
