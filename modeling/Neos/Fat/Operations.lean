import Neos.Fat.Creation

/-!
# The operations of the file system

The rest of the operations of `fat.c`: removing files and directories, and creating
directories.  The disk is only changed by single writes, and the FAT cache is only used in
loops that begin by invalidating it; what these keep, every operation keeps.
-/

namespace Neos.Fat

variable {g : Bpb} {s s' : State} {file dir : FatFile} {uninitialized : DirEntry}

/-! ## Removing -/

/-- `fat_fremove`.  `uninitialized` is what the local variable of `fat_update_lfn` holds. -/
def fatFremove (g : Bpb) (uninitialized : DirEntry) (file : FatFile) (s : State) :
    Option (FatFile × State) := do
  let s ← fatUpdateLfn g file true uninitialized s
  let file := { file with fatDir := file.fatDir.setField 0 1 0xE5 }
  let s ← fatUpdateEntry g file s
  let s ← fatRemoveFatChain g file s
  return (file, s)

/-- In `fat_dirremove`, `fat_longname_to_string` into `new_path`, which has room for all of
`long_filename`; `none` stands for a name without an end. -/
def newPath (longFilename : List ℕ) : Option (List UInt8) :=
  if (longFilename.takeWhile (· ≠ 0)).length < longFilename.length then some (nameOf longFilename)
  else none

/-- The type of `fat_remove`, for `path`, `is_file`, `root_dir` and a state. -/
abbrev Remove := List UInt8 → Bool → FatFile → State → Option (Bool × FatFile × State)

/-- The loop of `fat_dirremove`, with the `fat_remove` that it calls. -/
def dirremoveLoop (g : Bpb) (remove : Remove) : ℕ → FatFile → State → Option (FatFile × State)
  | 0, _, _ => none
  | rounds + 1, dir, s => do
      let (r, s) ← fatReaddir g dir s
      if r.found = .notFound then return (r.rootDir, s)
      else
        let file := if r.found = .foundFile then r.fileOut else r.subdirOut
        if file.fatDir.dirName 0 = 0x2E then dirremoveLoop g remove rounds r.rootDir s
        else do
          let path ← newPath file.longFilename
          let (_, dir, s) ← remove path (!file.fatDir.isDirectory) r.rootDir s
          dirremoveLoop g remove rounds dir s

/-- `fat_dirremove`, with the `fat_remove` that it calls. -/
def dirremoveWith (g : Bpb) (remove : Remove) (dir : FatFile) (s : State) :
    Option (FatFile × State) := do
  let (dir, s) ← dirremoveLoop g remove loopBound (fatRewinddir dir) s
  let dir := { dir with fatDir := dir.fatDir.setField 0 1 0xE5 }
  let s ← fatUpdateEntry g dir s
  let s ← fatRemoveFatChain g dir s
  return (dir, s)

/-- The body of `fat_remove`, with the `fat_remove` that `fat_dirremove` calls. -/
def removeWith (g : Bpb) (uninitialized : State → DirEntry) (remove : Remove) : Remove :=
  fun path isFile rootDir s => do
    let (r, s) ← fatFind g rootDir path isFile false s
    match r.found with
    | .foundFile => do
        let (_, s) ← fatFremove g (uninitialized s) r.fileOut s
        return (true, r.rootDir, s)
    | .foundDir => do
        let (_, s) ← dirremoveWith g remove r.subdirOut s
        return (true, r.rootDir, s)
    | .notFound => return (false, r.rootDir, s)

/-- `fat_remove` for a tree of some depth; `none` also stands for a deeper one. -/
def fatRemove (g : Bpb) (uninitialized : State → DirEntry) : ℕ → Remove
  | 0 => fun _ _ _ _ => none
  | depth + 1 => removeWith g uninitialized (fatRemove g uninitialized depth)

/-- `fat_dirremove`. -/
def fatDirremove (g : Bpb) (uninitialized : State → DirEntry) (depth : ℕ) (dir : FatFile)
    (s : State) : Option (FatFile × State) :=
  dirremoveWith g (fatRemove g uninitialized depth) dir s

/-! ## Creating a directory -/

/-- The entry that `fat_create_dir` writes for the directory of a handle, under the name
`.` or `..`. -/
def dotEntry (dots : List UInt8) (dir : FatFile) : DirEntry :=
  let entry := (DirEntry.zero.setBytes 0 (dots ++ List.replicate (11 - dots.length) 0x20)).setField
    11 1 0x10
  (entry.setFstClusLO dir.fatDir.dirFstClusLO).setFstClusHI dir.fatDir.dirFstClusHI

/-- `fat_create_dir`. -/
def fatCreateDir (g : Bpb) (uninitialized : DirEntry) (rootDir : FatFile) (path : List UInt8)
    (attributes : UInt8) (s : State) : Option (Bool × FatFile × State) := do
  let (r, s) ← fatFind g rootDir path false false s
  if r.found ≠ .notFound then return (false, r.subdirOut, s)
  else
    let (created, newDir, s) ←
      fatCreate g uninitialized r.subdirOut r.rootDir path (0x10 ||| attributes) s
    if created = false then return (false, newDir, s)
    else
      -- the handle on the parent directory is the one that `fat_update_lfn` builds
      let (parentDir, s) ← lfnParent g newDir s
      let (written, newDir, s) ← fatFwrite g (dotEntry [0x2E] newDir).buffer sizeofDirEntry
        (fatFseekSet newDir 0) s
      if written = false then return (false, newDir, s)
      else
        fatFwrite g (dotEntry [0x2E, 0x2E] parentDir).buffer sizeofDirEntry
          (fatFseekSet newDir sizeofDirEntry) s

/-! ## Properties that all operations keep -/

/-- A property of states that is kept by single writes and by the three loops that use the
FAT cache, which begin with an invalid cache. -/
structure Stable (g : Bpb) (P : State → Prop) : Prop where
  write : ∀ {s : State} (offset : ℕ) (bytes : List UInt8), P s → P (s.write offset bytes)
  fread : ∀ {s : State} {file : FatFile} {n c : ℕ} {out : ℕ → UInt8}
    {r : (ℕ → UInt8) × ℕ × State}, P s →
      freadLoop g file n loopBound c 0 0 out (fatInvalidateCache s) = some r → P r.2.2
  count : ∀ {s : State} {c : ℕ} {r : ℕ × State}, P s →
    clusterCountLoop g loopBound c 0 (fatInvalidateCache s) = some r → P r.2
  search : ∀ {s : State} {c : ℕ} {r : Option ℕ × State}, P s →
    findFreeCluster g loopBound c (fatInvalidateCache s) = some r → P r.2

namespace Stable

variable {P : State → Prop}

theorem fatFread (h : Stable g P) {out : ℕ → UInt8} {n : ℕ} {r : (ℕ → UInt8) × FatFile × State}
    (hs : P s) (hcall : Fat.fatFread g out n file s = some r) : P r.2.2 := by
  obtain ⟨r₁, hloop, hrest⟩ := Option.bind_eq_some_iff.mp hcall
  rw [← Option.some_inj.mp hrest]
  exact h.fread hs hloop

theorem fatFileClusterCount (h : Stable g P) {r : ℕ × State} (hs : P s)
    (hcall : Fat.fatFileClusterCount g file s = some r) : P r.2 := h.count hs hcall

theorem fatWriteFatEntry (h : Stable g P) (c v : ℕ) (hs : P s) :
    P (Fat.fatWriteFatEntry g s c v) := h.write _ _ (h.write _ _ hs)

theorem fatClearCluster (h : Stable g P) (c : ℕ) (hs : P s) : P (Fat.fatClearCluster g s c) :=
  h.write _ _ hs

/-! ### Writing -/

theorem advanceChain (h : Stable g P) {cursor n offset c v : ℕ} {r : Option ℕ × State} (hs : P s)
    (hcall : Fat.advanceChain g cursor n offset c v s = some r) : P r.2 := by
  unfold Fat.advanceChain at hcall
  split at hcall
  · split at hcall
    · split at hcall
      · rw [← Option.some_inj.mp hcall]
        exact hs
      · rw [← Option.some_inj.mp hcall]
        exact h.fatClearCluster _ (h.fatWriteFatEntry _ _ hs)
    · obtain ⟨⟨free, s₁⟩, hsearch, hrest⟩ := Option.bind_eq_some_iff.mp hcall
      have hs₁ := h.search hs hsearch
      cases free with
      | none =>
          rw [← Option.some_inj.mp hrest]
          exact hs₁
      | some f =>
          rw [← Option.some_inj.mp hrest]
          exact h.fatClearCluster _ (h.fatWriteFatEntry _ _ hs₁)
  · rw [← Option.some_inj.mp hcall]
    exact hs

theorem fwriteLoop (h : Stable g P) {data : ℕ → UInt8} {n : ℕ} :
    ∀ {rounds c offset total : ℕ} {s : State} {r : Option ℕ × State}, P s →
      Fat.fwriteLoop g data n file rounds c offset total s = some r → P r.2
  | rounds + 1, c, offset, total, s, r, hs, hcall => by
      rw [Fat.fwriteLoop] at hcall
      split at hcall
      · rw [← Option.some_inj.mp hcall]
        exact hs
      dsimp only at hcall
      split at hcall
      · rw [← Option.some_inj.mp hcall]
        exact hs
      obtain ⟨⟨next, s₁⟩, hadvance, hrest⟩ := Option.bind_eq_some_iff.mp hcall
      have hs₁ := h.advanceChain (by exact hs) hadvance
      cases next with
      | none =>
          rw [← Option.some_inj.mp hrest]
          exact hs₁
      | some v =>
          dsimp only at hrest
          have hs₂ : ∀ (p : Prop) [Decidable p] (at_ : ℕ) (bytes : List UInt8),
              P (if p then s₁.write at_ bytes else s₁) := by
            intro p _ at_ bytes
            split
            · exact h.write _ _ hs₁
            · exact hs₁
          split at hrest
          · rw [← Option.some_inj.mp hrest]
            exact hs₂ _ _ _
          · exact h.fwriteLoop (hs₂ _ _ _) hrest

theorem parentHandle (h : Stable g P) {c : ℕ} {r : FatFile × State} (hs : P s)
    (hcall : Fat.parentHandle g c s = some r) : P r.2 := by
  obtain ⟨⟨count, s₁⟩, hcount, hrest⟩ := Option.bind_eq_some_iff.mp hcall
  rw [← Option.some_inj.mp hrest]
  exact h.fatFileClusterCount hs hcount

/-- A writing operation that keeps the property. -/
def Writes (P : State → Prop) (write : Write) : Prop :=
  ∀ {data : ℕ → UInt8} {n : ℕ} {file : FatFile} {s : State} {r : Bool × FatFile × State},
    P s → write data n file s = some r → P r.2.2

theorem updateEntryWith (h : Stable g P) {write : Write} (hwrite : Writes P write) (hs : P s)
    (hcall : Fat.updateEntryWith g write file s = some s') : P s' := by
  unfold Fat.updateEntryWith at hcall
  split at hcall
  · rw [← Option.some_inj.mp hcall]
    exact hs
  · obtain ⟨⟨parent, s₁⟩, hparent, hrest⟩ := Option.bind_eq_some_iff.mp hcall
    obtain ⟨⟨done, file', s₂⟩, hwritten, hlast⟩ := Option.bind_eq_some_iff.mp hrest
    rw [← Option.some_inj.mp hlast]
    exact hwrite (h.parentHandle hs hparent) hwritten

theorem fwriteNested (h : Stable g P) : ∀ depth, Writes P (Fat.fwriteNested g depth)
  | 0, _, _, _, _, _, _, hcall => nomatch hcall
  | depth + 1, data, n, file, s, r, hs, hcall => by
      obtain ⟨⟨written, s₁⟩, hloop, hrest⟩ := Option.bind_eq_some_iff.mp hcall
      have hs₁ := h.fwriteLoop hs hloop
      cases written with
      | none =>
          rw [← Option.some_inj.mp hrest]
          exact hs₁
      | some total =>
          dsimp only at hrest
          split at hrest
          · obtain ⟨s₂, hupdate, hlast⟩ := Option.bind_eq_some_iff.mp hrest
            rw [← Option.some_inj.mp hlast]
            exact h.updateEntryWith (h.fwriteNested depth) hs₁ hupdate
          · rw [← Option.some_inj.mp hrest]
            exact hs₁

theorem fatFwrite (h : Stable g P) : Writes P (Fat.fatFwrite g) := h.fwriteNested 2

theorem fatUpdateEntry (h : Stable g P) (hs : P s)
    (hcall : Fat.fatUpdateEntry g file s = some s') : P s' :=
  h.updateEntryWith h.fatFwrite hs hcall

theorem removeChainLoop (h : Stable g P) :
    ∀ {rounds c : ℕ} {s s' : State}, P s → Fat.removeChainLoop g rounds c s = some s' → P s'
  | rounds + 1, c, s, s', hs, hcall => by
      rw [Fat.removeChainLoop] at hcall
      split at hcall
      · rw [← Option.some_inj.mp hcall]
        exact hs
      dsimp only at hcall
      split at hcall
      · rw [← Option.some_inj.mp hcall]
        exact hs
      split at hcall
      · rw [← Option.some_inj.mp hcall]
        exact hs
      have hs₁ := h.fatWriteFatEntry c 0 hs
      split at hcall
      · rw [← Option.some_inj.mp hcall]
        exact hs₁
      · exact h.removeChainLoop hs₁ hcall

theorem fatRemoveFatChain (h : Stable g P) (hs : P s)
    (hcall : Fat.fatRemoveFatChain g file s = some s') : P s' := h.removeChainLoop hs hcall

/-! ### Long names -/

theorem recreateLoop (h : Stable g P) {entries : ℕ} {checksum : UInt8} :
    ∀ {rounds entry position : ℕ} {dir : FatFile} {s s' : State}, P s →
      Fat.recreateLoop g file entries checksum rounds entry position dir s = some s' → P s'
  | rounds + 1, entry, position, dir, s, s', hs, hcall => by
      obtain ⟨⟨done, dir', s₁⟩, hwrite, hrest⟩ := Option.bind_eq_some_iff.mp hcall
      have hs₁ := h.fatFwrite hs hwrite
      dsimp only at hrest
      split at hrest
      · rw [← Option.some_inj.mp hrest]
        exact hs₁
      · exact h.recreateLoop hs₁ hrest

theorem removeLoop (h : Stable g P) :
    ∀ {rounds position : ℕ} {e : DirEntry} {dir : FatFile} {s : State} {r : List ℕ × State}, P s →
      Fat.removeLoop g rounds e position dir s = some r → P r.2
  | rounds + 1, position, e, dir, s, r, hs, hcall => by
      obtain ⟨⟨out, dir', s₁⟩, hread, hrest⟩ := Option.bind_eq_some_iff.mp hcall
      have hs₁ := h.fatFread hs hread
      dsimp only at hrest
      split at hrest
      · rw [← Option.some_inj.mp hrest]
        exact hs₁
      · obtain ⟨⟨done, dir₂, s₂⟩, hwrite, hrest⟩ := Option.bind_eq_some_iff.mp hrest
        obtain ⟨⟨positions, s₃⟩, hloop, hrest⟩ := Option.bind_eq_some_iff.mp hrest
        have hs₃ : P s₃ := h.removeLoop (h.fatFwrite hs₁ hwrite) hloop
        rw [← Option.some_inj.mp hrest]
        exact hs₃

theorem lfnParent (h : Stable g P) {r : FatFile × State} (hs : P s)
    (hcall : Fat.lfnParent g file s = some r) : P r.2 := by
  obtain ⟨⟨count, s₁⟩, hcount, hrest⟩ := Option.bind_eq_some_iff.mp hcall
  rw [← Option.some_inj.mp hrest]
  exact h.fatFileClusterCount hs hcount

theorem fatUpdateLfn (h : Stable g P) {remove : Bool} (hs : P s)
    (hcall : Fat.fatUpdateLfn g file remove uninitialized s = some s') : P s' := by
  unfold Fat.fatUpdateLfn at hcall
  split at hcall
  · obtain ⟨⟨positions, s₁⟩, hremove, rfl⟩ := Option.map_eq_some_iff.mp hcall
    obtain ⟨⟨dir, s₂⟩, hparent, hrest⟩ := Option.bind_eq_some_iff.mp hremove
    have hs₂ := h.lfnParent hs hparent
    dsimp only at hrest
    split at hrest
    · exact h.removeLoop hs₂ hrest
    · rw [← (Prod.mk.inj (Option.some_inj.mp hrest)).2]
      exact hs₂
  · obtain ⟨⟨dir, s₁⟩, hparent, hrest⟩ := Option.bind_eq_some_iff.mp hcall
    have hs₁ := h.lfnParent hs hparent
    dsimp only at hrest
    split at hrest
    · obtain ⟨length, -, hrest⟩ := Option.bind_eq_some_iff.mp hrest
      exact h.recreateLoop hs₁ hrest
    · rw [← Option.some_inj.mp hrest]
      exact hs₁

/-! ### Looking up -/

/-- A lookup that keeps the property. -/
def Finds (P : State → Prop) (find : Find) : Prop :=
  ∀ {q : Query} {dir : FatFile} {s : State} {r : FindResult × State},
    P s → find q dir s = some r → P r.2

theorem visitNamed {find : Find} (hfind : Finds P find) {q : Query} {dirOffset entries : ℕ}
    {lfn : Bool} {subdir : FatFile} {r : Visit × State} (hs : P s)
    (hcall : Fat.visitNamed find q dir dirOffset entries lfn subdir s = some r) : P r.2 := by
  have hstay : ∀ v : Visit, some (v, s) = some r → P r.2 := by
    intro v heq
    rw [← Option.some_inj.mp heq]
    exact hs
  unfold Fat.visitNamed at hcall
  dsimp only at hcall
  split at hcall
  · split at hcall
    · split at hcall
      · exact hstay _ hcall
      · exact hstay _ hcall
    · exact hstay _ hcall
  split at hcall
  · split at hcall
    · split at hcall
      · split at hcall
        · exact hstay _ hcall
        · exact hstay _ hcall
      · obtain ⟨⟨found, s₁⟩, hnested, hrest⟩ := Option.bind_eq_some_iff.mp hcall
        rw [← Option.some_inj.mp hrest]
        exact hfind hs hnested
    · split at hcall
      · exact hstay _ hcall
      · exact hstay _ hcall
  · exact hstay _ hcall

theorem findLoop (h : Stable g P) {find : Find} (hfind : Finds P find) {q : Query}
    {rootDir : FatFile} :
    ∀ {rounds dirOffset entries : ℕ} {lfn : Bool} {subdir : FatFile} {s : State}
      {r : FindResult × State}, P s →
      Fat.findLoop g find q rootDir dir rounds dirOffset entries lfn subdir s = some r → P r.2
  | rounds + 1, dirOffset, entries, lfn, subdir, s, r, hs, hcall => by
      rw [Fat.findLoop] at hcall
      split at hcall
      · rw [← Option.some_inj.mp hcall]
        exact hs
      obtain ⟨⟨out, file', s₁⟩, hread, hrest⟩ := Option.bind_eq_some_iff.mp hcall
      have hs₁ := h.fatFread hs hread
      dsimp only at hrest
      split at hrest
      · rw [← Option.some_inj.mp hrest]
        exact hs₁
      split at hrest
      · exact h.findLoop hfind hs₁ hrest
      split at hrest
      · obtain ⟨longFilename, -, hrest⟩ := Option.bind_eq_some_iff.mp hrest
        exact h.findLoop hfind hs₁ hrest
      obtain ⟨⟨visit, s₂⟩, hvisit, hrest⟩ := Option.bind_eq_some_iff.mp hrest
      obtain ⟨named, -, hnamed⟩ := Option.bind_eq_some_iff.mp hvisit
      have hs₂ := visitNamed hfind hs₁ hnamed
      cases visit with
      | stop found =>
          rw [← Option.some_inj.mp hrest]
          exact hs₂
      | next subdir' => exact h.findLoop hfind hs₂ hrest

theorem findNested (h : Stable g P) : ∀ depth, Finds P (Fat.findNested g depth)
  | 0, _, _, _, _, _, hcall => nomatch hcall
  | depth + 1, q, dir, s, r, hs, hcall => by
      obtain ⟨⟨count, s₁⟩, hcount, hrest⟩ := Option.bind_eq_some_iff.mp hcall
      exact h.findLoop (h.findNested depth) (h.fatFileClusterCount hs hcount) hrest

theorem fatFindFull (h : Stable g P) : Finds P (Fat.fatFindFull g) := fun hs hcall =>
  h.findNested _ hs hcall

theorem fatFind (h : Stable g P) {path : List UInt8} {isFile readAtCursor : Bool}
    {r : FindResult × State} (hs : P s)
    (hcall : Fat.fatFind g dir path isFile readAtCursor s = some r) : P r.2 :=
  h.fatFindFull hs hcall

theorem fatReaddir (h : Stable g P) {r : FindResult × State} (hs : P s)
    (hcall : Fat.fatReaddir g dir s = some r) : P r.2 := h.fatFind hs hcall

theorem fatOpendir (h : Stable g P) {path : List UInt8} {r : Bool × FatFile × State} (hs : P s)
    (hcall : Fat.fatOpendir g dir path s = some r) : P r.2.2 := by
  unfold Fat.fatOpendir at hcall
  split at hcall
  · rw [← Option.some_inj.mp hcall]
    exact hs
  · obtain ⟨⟨found, s₁⟩, hfind, hrest⟩ := Option.bind_eq_some_iff.mp hcall
    rw [← Option.some_inj.mp hrest]
    exact h.fatFind hs hfind

/-! ### Creating -/

theorem repeatLoop (h : Stable g P) :
    ∀ {rounds repeated : ℕ} {e : DirEntry} {dir : FatFile} {s : State}
      {r : DirEntry × FatFile × State}, P s →
      Fat.repeatLoop g rounds repeated e dir s = some r → P r.2.2
  | 0, _, _, _, _, _, hs, hcall => by
      rw [← Option.some_inj.mp hcall]
      exact hs
  | rounds + 1, repeated, e, dir, s, r, hs, hcall => by
      obtain ⟨⟨found, s₁⟩, hfind, hrest⟩ := Option.bind_eq_some_iff.mp hcall
      have hs₁ := h.fatFindFull hs hfind
      dsimp only at hrest
      split at hrest
      · rw [← Option.some_inj.mp hrest]
        exact hs₁
      · exact h.repeatLoop hs₁ hrest

theorem slotLoop (h : Stable g P) {required : ℕ} :
    ∀ {rounds dirOffset foundEntries : ℕ} {helper : DirEntry} {dir : FatFile} {s : State}
      {r : Option ℕ × FatFile × State}, P s →
      Fat.slotLoop g required rounds dirOffset foundEntries helper dir s = some r → P r.2.2
  | rounds + 1, dirOffset, foundEntries, helper, dir, s, r, hs, hcall => by
      rw [Fat.slotLoop] at hcall
      dsimp only at hcall
      split at hcall
      -- the directory is extended, or is long enough
      case' isTrue =>
        obtain ⟨⟨done, dir₁, s₁⟩, hwrite, hcall⟩ := Option.bind_eq_some_iff.mp hcall
        have hs₁ := h.fatFwrite hs hwrite
      case' isFalse => have hs₁ := hs
      all_goals
        obtain ⟨x, hx, hcall⟩ := Option.bind_eq_some_iff.mp hcall
        cases Option.some_inj.mp hx
        dsimp only at hcall
        split at hcall
        · rw [← Option.some_inj.mp hcall]
          exact hs₁
        obtain ⟨⟨out, dir₂, s₂⟩, hread, hcall⟩ := Option.bind_eq_some_iff.mp hcall
        have hs₂ := h.fatFread hs₁ hread
        dsimp only at hcall
        split at hcall
        · split at hcall
          · rw [← Option.some_inj.mp hcall]
            exact hs₂
          · exact h.slotLoop hs₂ hcall
        · exact h.slotLoop hs₂ hcall

theorem placeFile (h : Stable g P) {nameLength : ℕ} {r : Bool × FatFile × State} (hs : P s)
    (hcall : Fat.placeFile g uninitialized nameLength file dir s = some r) : P r.2.2 := by
  obtain ⟨⟨count, s₁⟩, hcount, hrest⟩ := Option.bind_eq_some_iff.mp hcall
  obtain ⟨⟨position, dir', s₂⟩, hslots, hrest⟩ := Option.bind_eq_some_iff.mp hrest
  have hs₂ := h.slotLoop (h.fatFileClusterCount hs hcount) hslots
  cases position with
  | none =>
      rw [← Option.some_inj.mp hrest]
      exact hs₂
  | some dirOffset =>
      obtain ⟨⟨free, s₃⟩, hsearch, hrest⟩ := Option.bind_eq_some_iff.mp hrest
      have hs₃ := h.search hs₂ hsearch
      cases free with
      | none =>
          rw [← Option.some_inj.mp hrest]
          exact hs₃
      | some f =>
          obtain ⟨s₄, hupdate, hrest⟩ := Option.bind_eq_some_iff.mp hrest
          obtain ⟨s₅, hlfn, hrest⟩ := Option.bind_eq_some_iff.mp hrest
          rw [← Option.some_inj.mp hrest]
          have hcleared := h.fatClearCluster f (h.fatWriteFatEntry f 0x0FFFFFFF hs₃)
          exact h.fatUpdateLfn (h.fatUpdateEntry hcleared hupdate) hlfn

theorem createParent (h : Stable g P) {path : List UInt8} {r : Bool × FatFile × State} (hs : P s)
    (hcall : Fat.createParent g dir path s = some r) : P r.2.2 := by
  unfold Fat.createParent at hcall
  split at hcall
  · exact h.fatOpendir hs hcall
  · rw [← Option.some_inj.mp hcall]
    exact hs

theorem fatCreate (h : Stable g P) {path : List UInt8} {attributes : UInt8}
    {r : Bool × FatFile × State} (hs : P s)
    (hcall : Fat.fatCreate g uninitialized file dir path attributes s = some r) : P r.2.2 := by
  obtain ⟨⟨opened, parentDir, s₁⟩, hparent, hrest⟩ := Option.bind_eq_some_iff.mp hcall
  have hs₁ := h.createParent hs hparent
  dsimp only at hrest
  split at hrest
  · rw [← Option.some_inj.mp hrest]
    exact hs₁
  split at hrest
  · rw [← Option.some_inj.mp hrest]
    exact hs₁
  obtain ⟨fresh, -, hrest⟩ := Option.bind_eq_some_iff.mp hrest
  split at hrest
  · obtain ⟨⟨e, dir', s₂⟩, hrepeat, hrest⟩ := Option.bind_eq_some_iff.mp hrest
    exact h.placeFile (h.repeatLoop hs₁ hrepeat) hrest
  · exact h.placeFile hs₁ hrest

theorem fatCreateFile (h : Stable g P) {path : List UInt8} {attributes : UInt8}
    {r : Bool × FatFile × State} (hs : P s)
    (hcall : Fat.fatCreateFile g uninitialized dir path attributes s = some r) : P r.2.2 := by
  obtain ⟨⟨found, s₁⟩, hfind, hrest⟩ := Option.bind_eq_some_iff.mp hcall
  have hs₁ := h.fatFind hs hfind
  dsimp only at hrest
  split at hrest
  · rw [← Option.some_inj.mp hrest]
    exact hs₁
  · exact h.fatCreate hs₁ hrest

theorem fatCreateDir (h : Stable g P) {path : List UInt8} {attributes : UInt8}
    {r : Bool × FatFile × State} (hs : P s)
    (hcall : Fat.fatCreateDir g uninitialized dir path attributes s = some r) : P r.2.2 := by
  obtain ⟨⟨found, s₁⟩, hfind, hrest⟩ := Option.bind_eq_some_iff.mp hcall
  have hs₁ := h.fatFind hs hfind
  dsimp only at hrest
  split at hrest
  · rw [← Option.some_inj.mp hrest]
    exact hs₁
  obtain ⟨⟨created, newDir, s₂⟩, hcreate, hrest⟩ := Option.bind_eq_some_iff.mp hrest
  have hs₂ := h.fatCreate hs₁ hcreate
  dsimp only at hrest
  split at hrest
  · rw [← Option.some_inj.mp hrest]
    exact hs₂
  obtain ⟨⟨parentDir, s₃⟩, hparent, hrest⟩ := Option.bind_eq_some_iff.mp hrest
  obtain ⟨⟨written, newDir', s₄⟩, hwrite, hrest⟩ := Option.bind_eq_some_iff.mp hrest
  have hs₄ := h.fatFwrite (h.lfnParent hs₂ hparent) hwrite
  dsimp only at hrest
  split at hrest
  · rw [← Option.some_inj.mp hrest]
    exact hs₄
  · exact h.fatFwrite hs₄ hrest

theorem fatFopen (h : Stable g P) {path : List UInt8} {mode : OpenMode}
    {r : Bool × FatFile × State} (hs : P s)
    (hcall : Fat.fatFopen g uninitialized dir path mode s = some r) : P r.2.2 := by
  obtain ⟨⟨found, s₁⟩, hfind, hrest⟩ := Option.bind_eq_some_iff.mp hcall
  have hs₁ := h.fatFind hs hfind
  have hstay : ∀ (done : Bool) (file : FatFile), some (done, file, s₁) = some r → P r.2.2 := by
    intro done file heq
    rw [← Option.some_inj.mp heq]
    exact hs₁
  dsimp only at hrest
  split at hrest
  · exact hstay _ _ hrest
  split at hrest
  · split at hrest
    · obtain ⟨⟨file', s₂⟩, htruncate, hrest⟩ := Option.bind_eq_some_iff.mp hrest
      obtain ⟨s₃, hupdate, htruncate⟩ := Option.bind_eq_some_iff.mp htruncate
      obtain ⟨s₄, hremove, hlast⟩ := Option.bind_eq_some_iff.mp htruncate
      have hs₄ := h.fatRemoveFatChain (h.fatUpdateEntry hs₁ hupdate) hremove
      rw [← Option.some_inj.mp hrest, ← (Prod.mk.inj (Option.some_inj.mp hlast)).2]
      exact h.fatWriteFatEntry _ _ hs₄
    · exact hstay _ _ hrest
  · exact h.fatCreateFile hs₁ hrest
  · exact hstay _ _ hrest

/-! ### Removing -/

theorem fatFremove (h : Stable g P) {r : FatFile × State} (hs : P s)
    (hcall : Fat.fatFremove g uninitialized file s = some r) : P r.2 := by
  obtain ⟨s₁, hlfn, hrest⟩ := Option.bind_eq_some_iff.mp hcall
  obtain ⟨s₂, hupdate, hrest⟩ := Option.bind_eq_some_iff.mp hrest
  obtain ⟨s₃, hremove, hrest⟩ := Option.bind_eq_some_iff.mp hrest
  rw [← Option.some_inj.mp hrest]
  exact h.fatRemoveFatChain (h.fatUpdateEntry (h.fatUpdateLfn hs hlfn) hupdate) hremove

/-- A removal that keeps the property. -/
def Removes (P : State → Prop) (remove : Remove) : Prop :=
  ∀ {path : List UInt8} {isFile : Bool} {dir : FatFile} {s : State} {r : Bool × FatFile × State},
    P s → remove path isFile dir s = some r → P r.2.2

theorem dirremoveLoop (h : Stable g P) {remove : Remove} (hremove : Removes P remove) :
    ∀ {rounds : ℕ} {dir : FatFile} {s : State} {r : FatFile × State}, P s →
      Fat.dirremoveLoop g remove rounds dir s = some r → P r.2
  | rounds + 1, dir, s, r, hs, hcall => by
      obtain ⟨⟨found, s₁⟩, hread, hrest⟩ := Option.bind_eq_some_iff.mp hcall
      have hs₁ := h.fatReaddir hs hread
      dsimp only at hrest
      generalize (if found.found = .foundFile then found.fileOut else found.subdirOut) = file
        at hrest
      split at hrest
      · rw [← Option.some_inj.mp hrest]
        exact hs₁
      split at hrest
      · exact h.dirremoveLoop hremove hs₁ hrest
      · obtain ⟨path, -, hrest⟩ := Option.bind_eq_some_iff.mp hrest
        obtain ⟨⟨done, dir', s₂⟩, hnested, hrest⟩ := Option.bind_eq_some_iff.mp hrest
        exact h.dirremoveLoop hremove (hremove hs₁ hnested) hrest

theorem dirremoveWith (h : Stable g P) {remove : Remove} (hremove : Removes P remove)
    {r : FatFile × State} (hs : P s) (hcall : Fat.dirremoveWith g remove dir s = some r) :
    P r.2 := by
  obtain ⟨⟨dir', s₁⟩, hloop, hrest⟩ := Option.bind_eq_some_iff.mp hcall
  obtain ⟨s₂, hupdate, hrest⟩ := Option.bind_eq_some_iff.mp hrest
  obtain ⟨s₃, hchain, hrest⟩ := Option.bind_eq_some_iff.mp hrest
  rw [← Option.some_inj.mp hrest]
  have hs₁ := h.dirremoveLoop hremove hs hloop
  exact h.fatRemoveFatChain (h.fatUpdateEntry hs₁ hupdate) hchain

theorem fatRemove (h : Stable g P) {uninitialized : State → DirEntry} :
    ∀ depth, Removes P (Fat.fatRemove g uninitialized depth)
  | 0, _, _, _, _, _, _, hcall => nomatch hcall
  | depth + 1, path, isFile, dir, s, r, hs, hcall => by
      obtain ⟨⟨found, s₁⟩, hfind, hrest⟩ := Option.bind_eq_some_iff.mp hcall
      have hs₁ := h.fatFind hs hfind
      dsimp only at hrest
      split at hrest
      · obtain ⟨⟨file', s₂⟩, hremove, hrest⟩ := Option.bind_eq_some_iff.mp hrest
        have hs₂ : P s₂ := h.fatFremove hs₁ hremove
        rw [← Option.some_inj.mp hrest]
        exact hs₂
      · obtain ⟨⟨dir', s₂⟩, hremove, hrest⟩ := Option.bind_eq_some_iff.mp hrest
        have hs₂ : P s₂ := h.dirremoveWith (h.fatRemove depth) hs₁ hremove
        rw [← Option.some_inj.mp hrest]
        exact hs₂
      · rw [← Option.some_inj.mp hrest]
        exact hs₁

end Stable

end Neos.Fat
