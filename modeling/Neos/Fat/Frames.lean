import Neos.Fat.Readdir
import Neos.Fat.Reading
import Neos.Fat.Termination

/-!
# What lookups see and leave behind

Reading and looking up change the FAT cache only, and what they find depends on the
disk only.
-/

namespace Neos.Fat

variable {g : Bpb} {s s' t : State} {file dir : FatFile} {out : ℕ → UInt8} {n c : ℕ}

/-! ## Lookups only read -/

theorem freadLoop_disk :
    ∀ {rounds c offset total : ℕ} {out : ℕ → UInt8} {s : State} {r : (ℕ → UInt8) × ℕ × State},
      freadLoop g file n rounds c offset total out s = some r → r.2.2.disk = s.disk
  | rounds + 1, c, offset, total, out, s, r, h => by
      have hdisk := fatReadFatEntry_disk g s c
      rw [freadLoop] at h
      dsimp only at h
      split at h
      · rw [← Option.some_inj.mp h]
      split at h
      · rw [← Option.some_inj.mp h]
        exact hdisk
      split at h
      · rw [← Option.some_inj.mp h]
        exact hdisk
      split at h
      · rw [← Option.some_inj.mp h]
        exact hdisk
      · rw [freadLoop_disk h, hdisk]

theorem fatFread_disk {r : (ℕ → UInt8) × FatFile × State} (h : fatFread g out n file s = some r) :
    r.2.2.disk = s.disk := by
  obtain ⟨⟨out', total, s₁⟩, hloop, hrest⟩ := Option.bind_eq_some_iff.mp h
  rw [← Option.some_inj.mp hrest]
  exact freadLoop_disk hloop

theorem freadLoop_taken :
    ∀ {rounds c offset total : ℕ} {out : ℕ → UInt8} {s : State} {r : (ℕ → UInt8) × ℕ × State},
      freadLoop g file n rounds c offset total out s = some r → r.2.2.taken = s.taken
  | rounds + 1, c, offset, total, out, s, r, h => by
      have htaken : (fatReadFatEntry g s c true).2.taken = s.taken := by
        rw [fatReadFatEntry_eq, loadSector]
        split <;> rfl
      rw [freadLoop] at h
      dsimp only at h
      split at h
      · rw [← Option.some_inj.mp h]
      split at h
      · rw [← Option.some_inj.mp h]
        exact htaken
      split at h
      · rw [← Option.some_inj.mp h]
        exact htaken
      split at h
      · rw [← Option.some_inj.mp h]
        exact htaken
      · rw [freadLoop_taken h, htaken]

theorem fatFread_taken {r : (ℕ → UInt8) × FatFile × State} (h : fatFread g out n file s = some r) :
    r.2.2.taken = s.taken := by
  obtain ⟨⟨out', total, s₁⟩, hloop, hrest⟩ := Option.bind_eq_some_iff.mp h
  rw [← Option.some_inj.mp hrest]
  exact freadLoop_taken hloop

theorem clusterCountLoop_disk :
    ∀ {rounds c count : ℕ} {s : State} {r : ℕ × State},
      clusterCountLoop g rounds c count s = some r → r.2.disk = s.disk
  | rounds + 1, c, count, s, r, h => by
      have hdisk := fatReadFatEntry_disk g s c
      rw [clusterCountLoop] at h
      dsimp only at h
      split at h
      · rw [← Option.some_inj.mp h]
      split at h
      · rw [← Option.some_inj.mp h]
        exact hdisk
      split at h
      · rw [← Option.some_inj.mp h]
        exact hdisk
      split at h
      · rw [← Option.some_inj.mp h]
        exact hdisk
      · rw [clusterCountLoop_disk h, hdisk]

/-- What a lookup of a path in a directory leaves behind: the disk as it was, no
cluster taken, and a result of the kind that was asked for. -/
structure LookedUp (q : Query) (dir : FatFile) (s : State) (r : FindResult) (s' : State) :
    Prop where
  disk : s'.disk = s.disk
  taken : s'.taken = s.taken
  root : r.rootDir = dir
  missing : r.found = .notFound → r.fileOut = fatFileDefault
  kind : r.found ≠ .notFound → r.found = if q.isFile then .foundFile else .foundDir

/-- A search that only looks paths up. -/
def OnlyLooks (find : Find) : Prop :=
  ∀ q dir s r s', q.readAtCursor = false → find q dir s = some (r, s') → LookedUp q (startDir dir) s r s'

theorem visitNamed_looks {find : Find} (hfind : OnlyLooks find) {q : Query}
    (hmode : q.readAtCursor = false) {dirOffset entries : ℕ} {lfnPresent : Bool} {subdir : FatFile}
    {visit : Visit}
    (h : visitNamed find q dir dirOffset entries lfnPresent subdir s = some (visit, s')) :
    s'.disk = s.disk ∧ s'.taken = s.taken ∧ ∀ r, visit = .stop r → LookedUp q dir s r s' := by
  have hnext : some (Visit.next subdir, s) = some (visit, s') →
      s'.disk = s.disk ∧ s'.taken = s.taken ∧ ∀ r, visit = .stop r → LookedUp q dir s r s' := by
    intro heq
    obtain ⟨rfl, rfl⟩ := Prod.mk.inj (Option.some_inj.mp heq)
    exact ⟨rfl, rfl, fun r hr => nomatch hr⟩
  unfold visitNamed at h
  rw [if_neg (by rw [hmode]; decide)] at h
  split at h
  · split at h
    · split at h
      · split at h
        · exact hnext h
        · next hkind =>
            obtain ⟨rfl, rfl⟩ := Prod.mk.inj (Option.some_inj.mp h)
            refine ⟨rfl, rfl, ?_⟩
            rintro r ⟨⟩
            exact ⟨rfl, rfl, rfl, fun hr => (nomatch hr), fun _ => (if_neg hkind).symm⟩
      · obtain ⟨⟨r, s₁⟩, hcall, hrest⟩ := Option.bind_eq_some_iff.mp h
        obtain ⟨rfl, rfl⟩ := Prod.mk.inj (Option.some_inj.mp hrest)
        obtain ⟨hdisk, htaken, -, hmissing, hkind⟩ := hfind _ _ _ _ _ (by exact hmode) hcall
        refine ⟨hdisk, htaken, ?_⟩
        rintro r' ⟨⟩
        exact ⟨hdisk, htaken, rfl, hmissing, hkind⟩
    · split at h
      · next hfile =>
          obtain ⟨rfl, rfl⟩ := Prod.mk.inj (Option.some_inj.mp h)
          refine ⟨rfl, rfl, ?_⟩
          rintro r ⟨⟩
          exact ⟨rfl, rfl, rfl, fun hr => (nomatch hr), fun _ => (if_pos hfile.1).symm⟩
      · exact hnext h
  · exact hnext h

theorem findLoop_looks {find : Find} (hfind : OnlyLooks find) {q : Query}
    (hmode : q.readAtCursor = false) {directory : FatFile} :
    ∀ {rounds dirOffset entries : ℕ} {lfnPresent : Bool} {subdir : FatFile} {s : State}
      {r : FindResult},
      findLoop g find q dir directory rounds dirOffset entries lfnPresent subdir s = some (r, s') →
        LookedUp q dir s r s'
  | rounds + 1, dirOffset, entries, lfnPresent, subdir, s, r, h => by
      have hnone : ∀ {s₁ : State} {subdir' : FatFile}, s₁.disk = s.disk → s₁.taken = s.taken →
          some (FindResult.mk .notFound subdir' fatFileDefault dir, s₁) = some (r, s') →
            LookedUp q dir s r s' := by
        intro s₁ subdir' hdisk htaken heq
        obtain ⟨rfl, rfl⟩ := Prod.mk.inj (Option.some_inj.mp heq)
        exact ⟨hdisk, htaken, rfl, fun _ => rfl, fun hr => absurd rfl hr⟩
      have hgo : ∀ {s₁ : State}, s₁.disk = s.disk → s₁.taken = s.taken → LookedUp q dir s₁ r s' →
          LookedUp q dir s r s' :=
        fun hdisk htaken hlooked => ⟨hlooked.disk.trans hdisk, hlooked.taken.trans htaken,
          hlooked.root, hlooked.missing, hlooked.kind⟩
      rw [findLoop] at h
      split at h
      · exact hnone rfl rfl h
      obtain ⟨⟨out, directory', s₁⟩, hread, h⟩ := Option.bind_eq_some_iff.mp h
      have hdisk : s₁.disk = s.disk := fatFread_disk hread
      have htaken : s₁.taken = s.taken := fatFread_taken hread
      dsimp only at h
      split at h
      · exact hnone hdisk htaken h
      split at h
      · exact hgo hdisk htaken (findLoop_looks hfind hmode h)
      split at h
      · obtain ⟨longFilename, -, h⟩ := Option.bind_eq_some_iff.mp h
        exact hgo hdisk htaken (findLoop_looks hfind hmode h)
      · obtain ⟨⟨visit, s₂⟩, hvisit, h⟩ := Option.bind_eq_some_iff.mp h
        obtain ⟨subdir', -, hvisit⟩ := Option.bind_eq_some_iff.mp hvisit
        obtain ⟨hdisk₂, htaken₂, hstop⟩ := visitNamed_looks hfind hmode hvisit
        cases visit with
        | stop r' =>
            obtain ⟨rfl, rfl⟩ := Prod.mk.inj (Option.some_inj.mp h)
            exact hgo hdisk htaken (hstop _ rfl)
        | next subdir'' =>
            exact hgo (hdisk₂.trans hdisk) (htaken₂.trans htaken) (findLoop_looks hfind hmode h)

theorem findNested_looks (g : Bpb) : ∀ depth, OnlyLooks (findNested g depth)
  | 0 => fun _ _ _ _ _ _ h => nomatch h
  | depth + 1 => by
      intro q dir s r s' hmode h
      obtain ⟨⟨count, s₁⟩, hcount, h⟩ := Option.bind_eq_some_iff.mp h
      have hdisk : s₁.disk = s.disk := clusterCountLoop_disk hcount
      have htaken : s₁.taken = s.taken := clusterCountLoop_taken hcount
      obtain ⟨hdisk', htaken', hroot, hmissing, hkind⟩ :=
        findLoop_looks (findNested_looks g depth) hmode h
      exact ⟨hdisk'.trans hdisk, htaken'.trans htaken, hroot, hmissing, hkind⟩

theorem fatFindFull_looks (g : Bpb) : OnlyLooks (fatFindFull g) :=
  fun q dir s r s' => findNested_looks g _ q dir s r s'

theorem fatFind_looks {path : List UInt8} {isFile : Bool} {r : FindResult}
    (h : fatFind g dir path isFile false s = some (r, s')) :
    LookedUp ⟨path, isFile, false, false⟩ (startDir dir) s r s' :=
  fatFindFull_looks g _ _ _ _ _ rfl h

/-! ## Lookups see the disk only -/

theorem freadLoop_sameDisk (hg : Geometry g) :
    ∀ {rounds c offset total : ℕ} {out : ℕ → UInt8} {s t : State} {r : (ℕ → UInt8) × ℕ × State},
      CacheFresh s → CacheFresh t → t.disk = s.disk → c < 2 ^ 28 →
        freadLoop g file n rounds c offset total out s = some r →
          ∃ t', freadLoop g file n rounds c offset total out t = some (r.1, r.2.1, t')
  | rounds + 1, c, offset, total, out, s, t, r, hs, ht, hdisk, hc, h => by
      obtain ⟨s₁, hread, hlooked⟩ := fatReadFatEntry_cached hg hs hc
      obtain ⟨t₁, hread', hlooked'⟩ := fatReadFatEntry_cached hg ht hc
      rw [hdisk] at hread'
      rw [freadLoop, hread] at h
      rw [freadLoop, hread']
      have hdisk' : t₁.disk = s₁.disk := hlooked'.disk.trans (hdisk.trans hlooked.disk.symm)
      dsimp only at h ⊢
      rw [hdisk']
      split at h
      · next hend =>
          rw [if_pos hend, ← Option.some_inj.mp h]
          exact ⟨t, rfl⟩
      next hend =>
      rw [if_neg hend]
      split at h
      · next hfree =>
          rw [if_pos hfree, ← Option.some_inj.mp h]
          exact ⟨t₁, rfl⟩
      next hfree =>
      rw [if_neg hfree]
      split at h
      · next hbad =>
          rw [if_pos hbad, ← Option.some_inj.mp h]
          exact ⟨t₁, rfl⟩
      next hbad =>
      rw [if_neg hbad]
      split at h
      · next hlast =>
          rw [if_pos hlast, ← Option.some_inj.mp h]
          exact ⟨t₁, rfl⟩
      next hlast =>
      rw [if_neg hlast]
      exact freadLoop_sameDisk hg hlooked.fresh hlooked'.fresh hdisk' (follow_lt g s.disk c) h

theorem fatFread_sameDisk (hg : Geometry g) (hdisk : t.disk = s.disk)
    {r : (ℕ → UInt8) × FatFile × State} (h : fatFread g out n file s = some r) :
    ∃ t', fatFread g out n file t = some (r.1, r.2.1, t') ∧ t'.disk = r.2.2.disk := by
  obtain ⟨⟨out', total, s₁⟩, hloop, hrest⟩ := Option.bind_eq_some_iff.mp h
  obtain ⟨t', hloop'⟩ := freadLoop_sameDisk (s := fatInvalidateCache s)
    (t := fatInvalidateCache t) hg (.inl rfl) (.inl rfl) hdisk
    ((DirEntry.dirFstClusLO_lt _).trans (by decide)) hloop
  have hcall : fatFread g out n file t = some (r.1, r.2.1, t') := by
    rw [← Option.some_inj.mp hrest, fatFread, hloop']
    rfl
  have hend : t'.disk = t.disk := fatFread_disk hcall
  exact ⟨t', hcall, hend.trans (hdisk.trans (fatFread_disk h).symm)⟩

theorem clusterCountLoop_sameDisk (hg : Geometry g) :
    ∀ {rounds c count : ℕ} {s t : State} {r : ℕ × State},
      CacheFresh s → CacheFresh t → t.disk = s.disk → c < 2 ^ 28 →
        clusterCountLoop g rounds c count s = some r →
          ∃ t', clusterCountLoop g rounds c count t = some (r.1, t')
  | rounds + 1, c, count, s, t, r, hs, ht, hdisk, hc, h => by
      obtain ⟨s₁, hread, hlooked⟩ := fatReadFatEntry_cached hg hs hc
      obtain ⟨t₁, hread', hlooked'⟩ := fatReadFatEntry_cached hg ht hc
      rw [hdisk] at hread'
      rw [clusterCountLoop, hread] at h
      rw [clusterCountLoop, hread']
      have hdisk' : t₁.disk = s₁.disk := hlooked'.disk.trans (hdisk.trans hlooked.disk.symm)
      dsimp only at h ⊢
      split at h
      · next hend =>
          rw [if_pos hend, ← Option.some_inj.mp h]
          exact ⟨t, rfl⟩
      next hend =>
      rw [if_neg hend]
      split at h
      · next hbad =>
          rw [if_pos hbad, ← Option.some_inj.mp h]
          exact ⟨t₁, rfl⟩
      next hbad =>
      rw [if_neg hbad]
      split at h
      · next hfree =>
          rw [if_pos hfree, ← Option.some_inj.mp h]
          exact ⟨t₁, rfl⟩
      next hfree =>
      rw [if_neg hfree]
      split at h
      · next hlast =>
          rw [if_pos hlast, ← Option.some_inj.mp h]
          exact ⟨t₁, rfl⟩
      next hlast =>
      rw [if_neg hlast]
      exact clusterCountLoop_sameDisk hg hlooked.fresh hlooked'.fresh hdisk'
        (follow_lt g s.disk c) h

/-- A search whose result depends on the disk only. -/
def SeesDisk (find : Find) : Prop :=
  ∀ q dir s t r s', t.disk = s.disk → find q dir s = some (r, s') →
    ∃ t', find q dir t = some (r, t') ∧ t'.disk = s'.disk

theorem visitNamed_seesDisk {find : Find} (hfind : SeesDisk find) {q : Query}
    {dirOffset entries : ℕ} {lfnPresent : Bool} {subdir : FatFile} {visit : Visit}
    (hdisk : t.disk = s.disk)
    (h : visitNamed find q dir dirOffset entries lfnPresent subdir s = some (visit, s')) :
    ∃ t', visitNamed find q dir dirOffset entries lfnPresent subdir t = some (visit, t') ∧
      t'.disk = s'.disk := by
  have hsame : ∀ {visit' : Visit}, some (visit', s) = some (visit, s') →
      ∃ t', some (visit', t) = some (visit, t') ∧ t'.disk = s'.disk := by
    intro visit' heq
    obtain ⟨rfl, rfl⟩ := Prod.mk.inj (Option.some_inj.mp heq)
    exact ⟨t, rfl, hdisk⟩
  unfold visitNamed at h ⊢
  dsimp only at h ⊢
  split at h
  · next hcursor =>
      rw [if_pos hcursor]
      split at h
      · next hhere =>
          rw [if_pos hhere]
          split at h
          · next hdir =>
              rw [if_pos hdir]
              exact hsame h
          · next hdir =>
              rw [if_neg hdir]
              exact hsame h
      · next hhere =>
          rw [if_neg hhere]
          exact hsame h
  next hcursor =>
  rw [if_neg hcursor]
  split at h
  · next hname =>
      rw [if_pos hname]
      split at h
      · next hdir =>
          rw [if_pos hdir]
          split at h
          · next hlast =>
              rw [if_pos hlast]
              split at h
              · next hfile =>
                  rw [if_pos hfile]
                  exact hsame h
              · next hfile =>
                  rw [if_neg hfile]
                  exact hsame h
          · next hlast =>
              rw [if_neg hlast]
              obtain ⟨⟨r, s₁⟩, hcall, hrest⟩ := Option.bind_eq_some_iff.mp h
              obtain ⟨rfl, rfl⟩ := Prod.mk.inj (Option.some_inj.mp hrest)
              obtain ⟨t', hcall', hdisk'⟩ := hfind _ _ _ _ _ _ hdisk hcall
              exact ⟨t', Option.bind_eq_some_iff.mpr ⟨_, hcall', rfl⟩, hdisk'⟩
      · next hdir =>
          rw [if_neg hdir]
          split at h
          · next hfile =>
              rw [if_pos hfile]
              exact hsame h
          · next hfile =>
              rw [if_neg hfile]
              exact hsame h
  · next hname =>
      rw [if_neg hname]
      exact hsame h

theorem findLoop_seesDisk (hg : Geometry g) {find : Find} (hfind : SeesDisk find) {q : Query}
    {directory : FatFile} :
    ∀ {rounds dirOffset entries : ℕ} {lfnPresent : Bool} {subdir : FatFile} {s t : State}
      {r : FindResult}, t.disk = s.disk →
      findLoop g find q dir directory rounds dirOffset entries lfnPresent subdir s = some (r, s') →
        ∃ t', findLoop g find q dir directory rounds dirOffset entries lfnPresent subdir t =
          some (r, t') ∧ t'.disk = s'.disk
  | rounds + 1, dirOffset, entries, lfnPresent, subdir, s, t, r, hdisk, h => by
      rw [findLoop] at h ⊢
      split at h
      · next hend =>
          obtain ⟨rfl, rfl⟩ := Prod.mk.inj (Option.some_inj.mp h)
          rw [if_pos hend]
          exact ⟨t, rfl, hdisk⟩
      next hend =>
      rw [if_neg hend]
      obtain ⟨⟨out, directory', s₁⟩, hread, h⟩ := Option.bind_eq_some_iff.mp h
      obtain ⟨t₁, hread', hdisk₁⟩ := fatFread_sameDisk hg hdisk hread
      rw [hread', Option.bind_eq_bind, Option.bind_some]
      dsimp only at h hdisk₁ ⊢
      split at h
      · next hzero =>
          obtain ⟨rfl, rfl⟩ := Prod.mk.inj (Option.some_inj.mp h)
          rw [if_pos hzero]
          exact ⟨t₁, rfl, hdisk₁⟩
      next hzero =>
      rw [if_neg hzero]
      split at h
      · next hfree =>
          rw [if_pos hfree]
          exact findLoop_seesDisk hg hfind hdisk₁ h
      next hfree =>
      rw [if_neg hfree]
      split at h
      · next hlong =>
          obtain ⟨longFilename, hstore, h⟩ := Option.bind_eq_some_iff.mp h
          rw [if_pos hlong, hstore, Option.bind_eq_bind, Option.bind_some]
          exact findLoop_seesDisk hg hfind hdisk₁ h
      next hlong =>
      rw [if_neg hlong]
      obtain ⟨⟨visit, s₂⟩, hvisit, h⟩ := Option.bind_eq_some_iff.mp h
      obtain ⟨subdir', hname, hvisit⟩ := Option.bind_eq_some_iff.mp hvisit
      obtain ⟨t₂, hvisit', hdisk₂⟩ := visitNamed_seesDisk hfind hdisk₁ hvisit
      rw [visitEntry, hname, Option.bind_eq_bind, Option.bind_eq_bind, Option.bind_some, hvisit',
        Option.bind_some]
      cases visit with
      | stop r' =>
          obtain ⟨rfl, rfl⟩ := Prod.mk.inj (Option.some_inj.mp h)
          exact ⟨t₂, rfl, hdisk₂⟩
      | next subdir'' => exact findLoop_seesDisk hg hfind hdisk₂ h

theorem findNested_seesDisk (hg : Geometry g) : ∀ depth, SeesDisk (findNested g depth)
  | 0 => fun _ _ _ _ _ _ _ h => nomatch h
  | depth + 1 => by
      intro q dir s t r s' hdisk h
      obtain ⟨⟨count, s₁⟩, hcount, h⟩ := Option.bind_eq_some_iff.mp h
      have hs₁ : s₁.disk = s.disk := clusterCountLoop_disk hcount
      obtain ⟨t₁, hcount'⟩ := clusterCountLoop_sameDisk (s := fatInvalidateCache s)
        (t := fatInvalidateCache t) hg (.inl rfl) (.inl rfl) hdisk
        ((DirEntry.dirFstClusLO_lt _).trans (by decide)) hcount
      have ht₁ : t₁.disk = t.disk := clusterCountLoop_disk hcount'
      obtain ⟨t', hloop, hdisk'⟩ := findLoop_seesDisk hg (findNested_seesDisk hg depth)
        (ht₁.trans (hdisk.trans hs₁.symm)) h
      exact ⟨t', Option.bind_eq_some_iff.mpr ⟨_, hcount', hloop⟩, hdisk'⟩

/-- A lookup that is repeated gives the same result. -/
theorem fatFind_again (hg : Geometry g) {path : List UInt8} {isFile : Bool} {r : FindResult}
    (h : fatFind g dir path isFile false s = some (r, s')) :
    ∃ s₂, fatFind g r.rootDir path isFile false s' = some (r, s₂) ∧ s₂.disk = s.disk := by
  have hlooked := fatFind_looks h
  obtain ⟨s₂, hagain, hdisk⟩ := findNested_seesDisk hg _ _ _ _ _ _ _ hlooked.disk h
  refine ⟨s₂, ?_, hdisk.trans hlooked.disk⟩
  rw [hlooked.root]
  exact (findWith_startDir _ _ _ _).trans hagain

end Neos.Fat
