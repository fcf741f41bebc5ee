import Neos.Fat.Opening
import Neos.Fat.Ownership
import Neos.Fat.Room

/-!
# Handles on a file

A handle agrees with the disk when it is opened, and it goes on doing so under its
own seeks, writes and truncations.
-/

namespace Neos.Fat

open ByteRange

variable {g : Bpb} {s s' : State} {file : FatFile} {l dir : List ℕ}

/-- A handle agrees with the disk wherever its cursor is. -/
theorem OpenFile.moved (h : OpenFile g s file l dir) (p : ℕ) :
    OpenFile g s { file with cursor := p } l dir :=
  ⟨h.chain, h.clusters, h.parent, h.parent_lt, h.inside, h.apart, h.entry⟩

/-- A file of size zero has one cluster. -/
theorem OpenFile.eq_singleton (hpos : 0 < g.clusterSize) (h : OpenFile g s file l dir)
    (hsize : file.fatDir.dirFileSize = 0) : l = [file.fatDir.dirFstClusLO] := by
  have hnone : clustersFor g 0 ≤ 0 := (clustersFor_le_iff hpos).mpr (Nat.zero_le _)
  have hlen := h.clusters
  rw [hsize, max_eq_left (by omega)] at hlen
  rcases h.chain.entry_cases with ⟨hone, -⟩ | ⟨rest, hrest, htail, -⟩
  · exact hone
  · have hpos' := htail.chain.length_pos
    rw [hrest, List.length_cons] at hlen
    omega

/-- The handle on a truncated file agrees with the disk. -/
theorem Truncated.opened (hpos : 0 < g.clusterSize) (h : OpenFile g s file l dir)
    (hcut : Truncated g s s' file l dir) :
    OpenFile g s' { file with fatDir := file.fatDir.setFileSize 0 } [file.fatDir.dirFstClusLO]
      dir := by
  have hhead := h.chain.chain.head_mem
  have hapart : ∀ x ∈ dir, x ≠ file.fatDir.dirFstClusLO := by
    rintro x hx rfl
    exact h.apart _ hx hhead
  have hlow : (file.fatDir.setFileSize 0).dirFstClusLO = file.fatDir.dirFstClusLO :=
    DirEntry.dirFstClusLO_setFileSize _ _
  have hnone : clustersFor g 0 ≤ 0 := (clustersFor_le_iff hpos).mpr (Nat.zero_le _)
  refine ⟨⟨?_, ?_⟩, ?_, hcut.parent, h.parent_lt, h.inside, ?_, hcut.stored⟩
  · dsimp only
    rw [hlow]
    apply LinkedChain.last
    rw [hcut.entry _ (h.chain.valid _ hhead) fun hmem => hapart _ hmem rfl, if_pos rfl]
    exact ⟨by decide, by decide⟩
  · intro x hx
    rw [List.mem_singleton.mp hx]
    exact h.chain.valid _ hhead
  · dsimp only
    rw [DirEntry.dirFileSize_setFileSize, Nat.zero_mod, List.length_singleton]
    omega
  · intro x hx hmem
    exact hapart x hx (List.mem_singleton.mp hmem)

/-- `fat_fseek` moves the cursor only. -/
theorem fatFseek_eq (file : FatFile) (offset origin : ℤ) :
    ∃ p, fatFseek file offset origin = { file with cursor := p } := by
  unfold fatFseek
  split
  · exact ⟨_, rfl⟩
  split
  · exact ⟨_, rfl⟩
  split
  · exact ⟨_, rfl⟩
  · exact ⟨file.cursor, rfl⟩

/-- A lookup of the path finds the file whose entry is at a position of a directory. -/
def FindsFile (g : Bpb) (s : State) (dir : List ℕ) (parent position : ℕ) (rootDir : FatFile)
    (path : List UInt8) : Prop :=
  ∃ r s', fatFind g rootDir path true false s = some (r, s') ∧ r.found = .foundFile ∧
    r.fileOut.firstParentCluster = parent ∧ r.fileOut.entryPosition = position ∧
    r.fileOut.fatDir = entryAt g s.disk dir position

/-- The handle that a lookup returns agrees with the disk. -/
theorem FindsFile.opened {rootDir : FatFile} {path : List UInt8}
    (hfinds : FindsFile g s dir file.firstParentCluster file.entryPosition rootDir path)
    (h : OpenFile g s file l dir) :
    ∃ r s', fatFind g rootDir path true false s = some (r, s') ∧ r.found = .foundFile ∧
      r.fileOut.fatDir = file.fatDir ∧ s'.disk = s.disk ∧ s'.taken = s.taken ∧
      OpenFile g s' r.fileOut l dir := by
  obtain ⟨r, s', hfind, hfound, hparent, hposition, hentry⟩ := hfinds
  have hlooked := fatFind_looks hfind
  have hsame : r.fileOut.fatDir = file.fatDir := hentry.trans h.entry
  refine ⟨r, s', hfind, hfound, hsame, hlooked.disk, hlooked.taken, ?_, ?_, ?_, ?_, ?_, h.apart, ?_⟩
  · rw [hlooked.disk, hsame]
    exact h.chain
  · rw [hsame]
    exact h.clusters
  · rw [hlooked.disk, hparent]
    exact h.parent
  · rw [hparent]
    exact h.parent_lt
  · rw [hposition]
    exact h.inside
  · rw [hlooked.disk, hposition]
    exact hentry.symm

/-! ## An empty file -/

/-- The small volume with an empty file `A` in the root directory. -/
def emptyListed : State :=
  { smallState with
    disk := writeBytes smallState.disk (smallVolume.clusterOffset 2) (entryA.setFileSize 0).bytes }

/-- The handle on this file. -/
def emptyA : FatFile :=
  { fatFileDefault with fatDir := entryA.setFileSize 0, firstParentCluster := 2 }

theorem emptyA_open : OpenFile smallVolume emptyListed emptyA [3] [2] where
  chain := by
    refine ⟨.last ?_, ?_⟩
    · have hmark : fatEntry smallVolume emptyListed.disk 3 = 0x0FFFFFFF := by decide +kernel
      have hfirst : emptyA.fatDir.dirFstClusLO = 3 := by decide +kernel
      rw [hfirst, hmark]
      exact ⟨by decide, by decide⟩
    · intro c hc
      rw [List.mem_singleton.mp hc]
      exact ⟨by decide, by decide⟩
  clusters := by decide +kernel
  parent := by
    refine ⟨.last ?_, ?_⟩
    · have hmark : fatEntry smallVolume emptyListed.disk 2 = 0x0FFFFFFF := by decide +kernel
      show EndMark (fatEntry smallVolume emptyListed.disk 2)
      rw [hmark]
      exact ⟨by decide, by decide⟩
    · intro c hc
      rw [List.mem_singleton.mp hc]
      exact ⟨by decide, by decide⟩
  parent_lt := by decide
  inside := by decide +kernel
  apart := by decide
  entry := DirEntry.ext_buffer (by decide +kernel)

/-- What stays in one cluster finds room. -/
theorem room_smallVolume {file : FatFile} {n : ℕ} (disk : ℕ → UInt8) (hn : file.cursor + n ≤ 512) :
    Room smallVolume disk file n := by
  intro front last hchain
  rw [show smallVolume.clusterSize = 512 by decide +kernel, List.length_append,
    List.length_singleton]
  omega

end Neos.Fat
