import Neos.Fat.LongNames
import Neos.Fat.Walks

/-!
# Removing a long name

`fat_update_lfn` removes a long name by going back from the entry of a file, slot
by slot, until it meets one that is no long-name slot.  Nothing but such a slot
stops it: at the start of the directory the position wraps around.
-/

namespace Neos.Fat

open ByteRange

variable {g : Bpb} {s s' : State} {dir : List ℕ}

/-- `fat_fread` moves the cursor of a handle only. -/
theorem fatFread_fatDir {out out' : ℕ → UInt8} {n : ℕ} {file file' : FatFile}
    (h : fatFread g out n file s = some (out', file', s')) : file'.fatDir = file.fatDir := by
  obtain ⟨⟨out₁, total, s₁⟩, -, hrest⟩ := Option.bind_eq_some_iff.mp h
  obtain ⟨-, hfile⟩ := Prod.mk.inj (Option.some_inj.mp hrest)
  rw [← (Prod.mk.inj hfile).1]

/-- One round of the removal at a slot of the directory: it stops there, or it marks
the slot free and goes on in front of it. -/
theorem removeLoop_slot (hg : Geometry g) (hfat : 3 * g.secPerClus ≤ g.fatSz32) (rounds : ℕ)
    {parentDir : FatFile} (h : Covers g s parentDir dir) (fatDir : DirEntry) {j : ℕ}
    (hj : 32 * j + 32 ≤ dir.length * g.clusterSize) :
    ((entryAt g s.disk dir (32 * j)).dirAttr ≠ 0x0F ∧ ∃ s',
        removeLoop g (rounds + 1) fatDir (32 * (j + 1)) parentDir s = some ([32 * j], s')) ∨
      ((entryAt g s.disk dir (32 * j)).dirAttr = 0x0F ∧ ∃ fatDir' parentDir' s',
        removeLoop g (rounds + 1) fatDir (32 * (j + 1)) parentDir s =
          (removeLoop g rounds fatDir' (32 * j) parentDir' s').map
            (fun r => (32 * j :: r.1, r.2)) ∧
        Covers g s' parentDir' dir ∧ ∀ i, i < j →
          entryAt g s'.disk dir (32 * i) = entryAt g s.disk dir (32 * i)) := by
  have hbytes := h.chain.bytes_lt hg
  have hback : sub32 (32 * (j + 1)) sizeofDirEntry = 32 * j := by
    rw [sizeofDirEntry, sub32_of_le (by omega) (by omega)]
    omega
  obtain ⟨out, file, s₁, hread, hentry, hlooked⟩ := fatFread_slot hg h hj fatDir.buffer
  have hcovers : Covers g s₁ file dir := by
    have hsame : file.fatDir = (fatFseekSet parentDir (32 * j)).fatDir := fatFread_fatDir hread
    obtain ⟨hchain, hsize⟩ := h.of_looked hlooked
    refine ⟨?_, ?_⟩
    · rw [hsame]
      exact hchain
    · rw [hsame]
      exact hsize
  by_cases hattr : (entryAt g s.disk dir (32 * j)).dirAttr = 0x0F
  · right
    obtain ⟨file₂, s₂, hwrite, hcovers₂, hentries⟩ := fatFwrite_slot hg hfat hcovers hj
      ((entryAt g s.disk dir (32 * j)).setField 0 1 0xE5)
    refine ⟨hattr, (entryAt g s.disk dir (32 * j)).setField 0 1 0xE5, file₂, s₂, ?_, hcovers₂, ?_⟩
    · rw [removeLoop]
      dsimp only
      rw [hback, hread, Option.bind_eq_bind, Option.bind_some]
      dsimp only
      rw [hentry, if_neg (not_not.mpr hattr), hwrite, Option.bind_eq_bind, Option.bind_some]
      cases removeLoop g rounds ((entryAt g s.disk dir (32 * j)).setField 0 1 0xE5) (32 * j) file₂
          s₂ with
      | none => rfl
      | some r => rfl
    · intro i hi
      rw [hentries i (by omega), if_neg (by omega), hlooked.disk]
  · left
    refine ⟨hattr, s₁, ?_⟩
    rw [removeLoop]
    dsimp only
    rw [hback, hread, Option.bind_eq_bind, Option.bind_some]
    dsimp only
    rw [hentry, if_pos hattr]
    rfl

/-- A slot that is no long-name slot stops the removal before the start of the
directory. -/
theorem removeLoop_stops (hg : Geometry g) (hfat : 3 * g.secPerClus ≤ g.fatSz32) :
    ∀ {j rounds : ℕ} {fatDir : DirEntry} {parentDir : FatFile} {s : State}, j ≤ rounds →
      32 * j ≤ dir.length * g.clusterSize → Covers g s parentDir dir →
        (∃ i < j, (entryAt g s.disk dir (32 * i)).dirAttr ≠ 0x0F) →
          ∃ positions s', removeLoop g rounds fatDir (32 * j) parentDir s = some (positions, s') ∧
            positions.length ≤ j ∧ ∀ q ∈ positions, q + 32 ≤ dir.length * g.clusterSize
  | 0, _, _, _, _, _, _, _, hstop => by
      obtain ⟨i, hi, -⟩ := hstop
      exact absurd hi (Nat.not_lt_zero i)
  | j + 1, rounds + 1, fatDir, parentDir, s, hrounds, hj, h, hstop => by
      rcases removeLoop_slot hg hfat rounds h fatDir (j := j) (by omega) with
        ⟨-, s₁, hloop⟩ | ⟨hattr, fatDir', parentDir', s₁, hloop, hcovers, hsame⟩
      · refine ⟨_, s₁, hloop, by rw [List.length_singleton]; omega, ?_⟩
        intro q hq
        rw [List.mem_singleton.mp hq]
        omega
      · obtain ⟨i, hi, hne⟩ := hstop
        have hij : i < j := by
          by_contra hge
          rw [show i = j by omega] at hne
          exact hne hattr
        obtain ⟨positions, s₂, hrec, hlen, hinside⟩ := removeLoop_stops hg hfat
          (Nat.le_of_succ_le_succ hrounds) (by omega) hcovers ⟨i, hij, by rwa [hsame i hij]⟩
        refine ⟨32 * j :: positions, s₂, by rw [hloop, hrec]; rfl, Nat.succ_le_succ hlen, ?_⟩
        exact List.forall_mem_cons.mpr ⟨by omega, hinside⟩

/-- Without one the removal seeks to the position in front of the directory, or
does not come back. -/
theorem removeLoop_wraps (hg : Geometry g) (hfat : 3 * g.secPerClus ≤ g.fatSz32) :
    ∀ {j rounds : ℕ} {fatDir : DirEntry} {parentDir : FatFile} {s s' : State} {positions : List ℕ},
      32 * j ≤ dir.length * g.clusterSize → Covers g s parentDir dir →
        (∀ i < j, (entryAt g s.disk dir (32 * i)).dirAttr = 0x0F) →
          removeLoop g rounds fatDir (32 * j) parentDir s = some (positions, s') →
            2 ^ 32 - 32 ∈ positions
  | _, 0, _, _, _, _, _, _, _, _, hrun => nomatch hrun
  | 0, rounds + 1, fatDir, parentDir, s, s', positions, _, _, _, hrun => by
      have hback : sub32 (32 * 0) sizeofDirEntry = 2 ^ 32 - 32 := by
        unfold sub32
        rfl
      rw [removeLoop] at hrun
      dsimp only at hrun
      rw [hback] at hrun
      obtain ⟨⟨out, file, s₁⟩, -, hrun⟩ := Option.bind_eq_some_iff.mp hrun
      dsimp only at hrun
      split at hrun
      · rw [← (Prod.mk.inj (Option.some_inj.mp hrun)).1]
        exact List.mem_singleton.mpr rfl
      · obtain ⟨⟨_, file₂, s₂⟩, -, hrun⟩ := Option.bind_eq_some_iff.mp hrun
        obtain ⟨⟨more, s₃⟩, -, hrun⟩ := Option.bind_eq_some_iff.mp hrun
        rw [← (Prod.mk.inj (Option.some_inj.mp hrun)).1]
        exact List.mem_cons_self
  | j + 1, rounds + 1, fatDir, parentDir, s, s', positions, hj, h, hall, hrun => by
      rcases removeLoop_slot hg hfat rounds h fatDir (j := j) (by omega) with
        ⟨hattr, -⟩ | ⟨-, fatDir', parentDir', s₁, hloop, hcovers, hsame⟩
      · exact absurd (hall j (Nat.lt_succ_self j)) hattr
      · rw [hloop] at hrun
        obtain ⟨⟨more, s₂⟩, hrec, heq⟩ := Option.map_eq_some_iff.mp hrun
        have hmem := removeLoop_wraps hg hfat (by omega) hcovers
          (fun i hi => by rw [hsame i hi]; exact hall i (by omega)) hrec
        rw [← (Prod.mk.inj heq).1]
        exact List.mem_cons_of_mem _ hmem

/-- The removal of a long name in front of slot `k` ends within `k + 1` rounds and
stays inside the directory. -/
def RemovalBounded (g : Bpb) (file : FatFile) (uninitialized : DirEntry) (s : State)
    (dir : List ℕ) (k : ℕ) : Prop :=
  ∃ positions s', removeLfn g file uninitialized s = some (positions, s') ∧
    positions.length ≤ k + 1 ∧ ∀ q ∈ positions, q + 32 ≤ dir.length * g.clusterSize

theorem removeLfn_eq (hg : Geometry g) {file : FatFile} (hlt : file.firstParentCluster < 2 ^ 16)
    (hdir : FileChain g s.disk file.firstParentCluster dir) (hpresent : file.lfnPresent = true)
    (uninitialized : DirEntry) :
    ∃ parentDir s₁, s₁.disk = s.disk ∧ Covers g s₁ parentDir dir ∧
      removeLfn g file uninitialized s =
        removeLoop g loopBound uninitialized file.entryPosition parentDir s₁ := by
  obtain ⟨parentDir, s₁, hparent, hdisk, hcovers⟩ := lfnParent_spec hg hlt hdir
  refine ⟨parentDir, s₁, hdisk, hcovers, ?_⟩
  unfold removeLfn
  rw [hparent, Option.bind_eq_bind, Option.bind_some]
  exact if_pos hpresent

/-- The removal is bounded exactly when some slot in front of the entry is no
long-name slot. -/
theorem removeLfn_bounded_iff (hg : Geometry g) (hfat : 3 * g.secPerClus ≤ g.fatSz32)
    {file : FatFile} (hpresent : file.lfnPresent = true)
    (hdir : FileChain g s.disk file.firstParentCluster dir)
    (hlt : file.firstParentCluster < 2 ^ 16) {k : ℕ} (hposition : file.entryPosition = 32 * k)
    (hinside : 32 * k + 32 ≤ dir.length * g.clusterSize) (uninitialized : DirEntry) :
    RemovalBounded g file uninitialized s dir k ↔
      ∃ i < k, (entryAt g s.disk dir (32 * i)).dirAttr ≠ 0x0F := by
  have hbytes := hdir.bytes_lt hg
  obtain ⟨parentDir, s₁, hdisk, hcovers, hrun⟩ := removeLfn_eq hg hlt hdir hpresent uninitialized
  rw [hposition] at hrun
  rw [RemovalBounded, hrun, ← hdisk]
  constructor
  · rintro ⟨positions, s', hloop, -, hall⟩
    by_contra hnone
    push Not at hnone
    have hwrap := hall _ (removeLoop_wraps hg hfat (by omega) hcovers hnone hloop)
    omega
  · intro hstop
    have hrounds : k ≤ loopBound := by
      unfold loopBound
      omega
    obtain ⟨positions, s', hloop, hlen, hall⟩ := removeLoop_stops hg hfat hrounds (by omega)
      hcovers hstop
    exact ⟨positions, s', hloop, hlen.trans (Nat.le_succ k), hall⟩

/-! ## A name at the start of a directory -/

/-- The slot of the long name `a` of the file `A`. -/
def slotA : DirEntry := lfnSlot (namedFile [0x61] 1) 1 (fatLfnChecksum entryA) 1

/-- The small volume with given slots at the start of the root directory. -/
def stateWith (bytes : List UInt8) : State :=
  { smallState with disk := writeBytes smallState.disk (smallVolume.clusterOffset 2) bytes }

/-- The handle on the file `A` with the long name `a` in slot `k`. -/
def handleA (k : ℕ) : FatFile := { namedFile [0x61] k with fatDir := entryA }

theorem stateWith_chain (bytes : List UInt8)
    (hmark : fatEntry smallVolume (stateWith bytes).disk 2 = 0x0FFFFFFF) :
    FileChain smallVolume (stateWith bytes).disk 2 [2] where
  chain := by
    apply LinkedChain.last
    rw [hmark]
    exact ⟨by decide, by decide⟩
  valid := by
    intro c hc
    rw [List.mem_singleton.mp hc]
    exact ⟨by decide, by decide⟩

/-- Behind another entry the long name is removed without leaving the directory. -/
theorem removeLfn_bounded_iff_behind :
    RemovalBounded smallVolume (handleA 2) .zero
      (stateWith (entryA.bytes ++ slotA.bytes ++ entryA.bytes)) [2] 2 := by
  refine (removeLfn_bounded_iff (k := 2) smallVolume_geometry (by decide) rfl
    (stateWith_chain _ (by decide +kernel)) (by decide) rfl (by decide +kernel) .zero).mpr ?_
  exact ⟨0, by decide, by decide +kernel⟩

/-- In a directory without a volume label, which begins with the long name of its
only file, the removal leaves the directory. -/
theorem removeLfn_leaves_directory :
    DirectoryAt smallVolume (stateWith (slotA.bytes ++ entryA.bytes)).disk 2 [2]
        [⟨entryA, 1, some slotA.lfnChars⟩] ∧
      ¬ RemovalBounded smallVolume (handleA 1) .zero (stateWith (slotA.bytes ++ entryA.bytes))
        [2] 1 := by
  have hchain := stateWith_chain (slotA.bytes ++ entryA.bytes) (by decide +kernel)
  have hfirst : entryAt smallVolume (stateWith (slotA.bytes ++ entryA.bytes)).disk [2] (32 * 0) =
      slotA := DirEntry.ext_buffer (by decide +kernel)
  refine ⟨⟨hchain, ?_, ?_⟩, ?_⟩
  · have hcount : [2].length * smallVolume.clusterSize / 32 = 16 := by decide +kernel
    have hsplit : List.range 16 = 0 :: 1 :: 2 :: List.range' 3 13 := rfl
    have hsecond : entryAt smallVolume (stateWith (slotA.bytes ++ entryA.bytes)).disk [2] (32 * 1) =
        entryA := DirEntry.ext_buffer (by decide +kernel)
    have hgroup : LongGroup slotA [] [] 0 :=
      ⟨by decide +kernel, by decide +kernel, .nil, by decide⟩
    have hlive : Live entryA := ⟨by decide, by decide, by decide⟩
    rw [slots, hcount, hsplit, List.map_cons, List.map_cons, List.map_cons, hfirst, hsecond]
    apply Layout.item (.long hgroup hlive)
    apply Layout.stop
    decide +kernel
  · intro i hi
    rw [List.mem_singleton.mp hi]
    have hshort : (shortName entryA).all (fun c => decide (c ≠ 0)) = true := by decide
    refine ⟨fun c hc => of_decide_eq_true (List.all_eq_true.mp hshort c hc), ?_⟩
    intro chars hchars v hv
    rw [← Option.some_inj.mp hchars] at hv
    have hsmall : (slotA.lfnChars.takeWhile (· ≠ 0)).all (fun v => decide (v < 2 ^ 7)) = true := by
      decide +kernel
    exact of_decide_eq_true (List.all_eq_true.mp hsmall v hv)
  · rintro ⟨positions, s', hrun, -, hall⟩
    obtain ⟨parentDir, s₁, hdisk, hcovers, heq⟩ := removeLfn_eq
      smallVolume_geometry (show (handleA 1).firstParentCluster < 2 ^ 16 by decide) hchain rfl .zero
    have hattr : slotA.dirAttr = 0x0F := by decide +kernel
    have hwrap := hall _ (removeLoop_wraps (j := 1) smallVolume_geometry (by decide) (by decide +kernel)
      hcovers (by
        intro i hi
        rw [show i = 0 by omega, hdisk, hfirst]
        exact hattr) (heq.symm.trans hrun))
    have hsize : smallVolume.clusterSize = 512 := by decide +kernel
    rw [hsize] at hwrap
    exact absurd hwrap (by decide)

end Neos.Fat
