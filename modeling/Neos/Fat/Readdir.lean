import Neos.Fat.Walks

/-!
# Enumerating a directory

`fat_readdir` is a lookup that stops at the entry whose number is the cursor of the
handle, and moves the cursor on.  Each call scans the directory again from its
start; after `fat_rewinddir` the calls return the items one after the other.
-/

namespace Neos.Fat

variable {g : Bpb} {s : State} {l : List ℕ} {items : List Item}

/-- Calls of `fat_readdir` with the same handle. -/
def readdirs (g : Bpb) : ℕ → FatFile → State → Option (List FindResult × FatFile × State)
  | 0, parent, s => some ([], parent, s)
  | n + 1, parent, s => do
      let (r, s) ← fatReaddir g parent s
      let (rs, parent, s) ← readdirs g n r.rootDir s
      return (r :: rs, parent, s)

/-- The name of an item in `unsigned short`s: its long name, otherwise its 8.3
name. -/
def Item.characters (i : Item) : List ℕ :=
  i.long.elim ((shortName i.entry).map shortOfChar) (·.takeWhile (· ≠ 0))

/-- A call returns an item of the directory with the given first cluster: its kind,
its entry, its name, its position, and where it is. -/
structure Returns (i : Item) (parentCluster : ℕ) (r : FindResult) : Prop where
  found : r.found = if i.entry.isDirectory then .foundDir else .foundFile
  handle : ∃ lf, lf.takeWhile (· ≠ 0) = i.characters ∧
    (if i.entry.isDirectory then r.subdirOut else r.fileOut) = i.handle parentCluster lf

/-- The clusters and the items of a directory.  An 8.3 name has no zero byte. -/
structure ListedAt (g : Bpb) (disk : ℕ → UInt8) (cluster : ℕ) (l : List ℕ)
    (items : List Item) : Prop where
  chain : FileChain g disk cluster l
  layout : Layout 0 (slots g disk l) items
  short : ∀ i ∈ items, ∀ c ∈ shortName i.entry, c ≠ 0

theorem DirectoryAt.listedAt {disk : ℕ → UInt8} {cluster : ℕ}
    (h : DirectoryAt g disk cluster l items) : ListedAt g disk cluster l items :=
  ⟨h.chain, h.layout, fun i hi => (h.ascii i hi).short⟩

/-! ## The name in the array -/

theorem shortOfChar_ne_zero {c : UInt8} (h : c ≠ 0) : shortOfChar c ≠ 0 := by
  have hne : c.toNat ≠ 0 := fun hzero => h (UInt8.toNat_inj.mp hzero)
  unfold shortOfChar
  split
  · exact hne
  · omega

/-- The characters of an 8.3 name end in a zero. -/
theorem shortnameChars_eq (e : DirEntry) :
    ∃ rest, shortnameChars e = (shortName e).map shortOfChar ++ 0 :: rest := by
  unfold shortnameChars shortName
  dsimp only
  split
  · exact ⟨[0], rfl⟩
  · have hdot : shortOfChar 0x2E = 0x2E := rfl
    refine ⟨[], ?_⟩
    rw [List.map_append, List.map_cons, hdot]
    simp only [List.append_assoc, List.cons_append, List.nil_append]

/-- In front of the first zero the array holds the name of the item. -/
theorem Item.NameIn.characters {i : Item} {lf : List ℕ} (h : i.NameIn false lf)
    (hshort : ∀ c ∈ shortName i.entry, c ≠ 0) : lf.takeWhile (· ≠ 0) = i.characters := by
  obtain ⟨rest, rfl⟩ := h
  have hview : i.view false = i := rfl
  rw [hview, Item.characters]
  cases i.long with
  | none =>
      obtain ⟨more, hchars⟩ := shortnameChars_eq i.entry
      have hall : ∀ v ∈ (shortName i.entry).map shortOfChar, decide (v ≠ 0) = true := by
        intro v hv
        obtain ⟨c, hc, rfl⟩ := List.mem_map.mp hv
        exact decide_eq_true (shortOfChar_ne_zero (hshort c hc))
      show (shortnameChars i.entry ++ rest).takeWhile _ = (shortName i.entry).map shortOfChar
      rw [hchars, List.append_assoc, List.takeWhile_append_of_pos hall]
      simp
  | some chars =>
      show (chars ++ [0] ++ rest).takeWhile _ = chars.takeWhile _
      rw [List.append_assoc, List.takeWhile_append]
      split
      · next hfull =>
          have hsame : chars.takeWhile (· ≠ 0) = chars :=
            (List.takeWhile_prefix _).eq_of_length hfull
          rw [hsame]
          simp
      · rfl

/-! ## One call -/

/-- What the call that reaches an item returns. -/
def itemResult (rootDir : FatFile) (i : Item) (lf : List ℕ) (s : State) :
    Option (FindResult × State) :=
  let handle := i.handle rootDir.fatDir.dirFstClusLO lf
  let rootDir := { rootDir with cursor := u32 (rootDir.cursor + 1) }
  if i.entry.isDirectory then some (⟨.foundDir, handle, fatFileDefault, rootDir⟩, s)
  else some (⟨.foundFile, scanned i.entry lf, handle, rootDir⟩, s)

/-- The scan stops at the item whose number is the cursor. -/
theorem visitNamed_readdir (find : Find) {q : Query} (hmode : q.readAtCursor = true)
    (rootDir : FatFile) (i : Item) (n : ℕ) (lf : List ℕ) (s : State) :
    visitNamed find q rootDir (32 * i.slot) n i.long.isSome (scanned i.entry lf) s =
      if decide (n = rootDir.cursor) then
        (itemResult rootDir i lf s).bind fun r => some (.stop r.1, r.2)
      else some (.next (scanned i.entry lf), s) := by
  have hdir : (scanned i.entry lf).fatDir = i.entry := rfl
  unfold visitNamed itemResult
  dsimp only
  rw [hmode, if_pos rfl, hdir]
  by_cases hn : n = rootDir.cursor
  · rw [if_pos hn, if_pos (decide_eq_true hn)]
    by_cases hdirectory : i.entry.isDirectory = true
    · rw [if_pos hdirectory, if_pos hdirectory]
      rfl
    · rw [if_neg hdirectory, if_neg hdirectory]
      rfl
  · rw [if_neg hn, if_neg (by simpa using hn)]

theorem firstStop_cursor (cursor : ℕ) :
    ∀ (n : ℕ) (items : List Item), n ≤ cursor →
      firstStop (fun n _ => decide (n = cursor)) n items = items[cursor - n]?
  | _, [], _ => rfl
  | n, i :: items, hn => by
      rw [firstStop]
      by_cases heq : n = cursor
      · rw [heq, if_pos (decide_eq_true rfl), Nat.sub_self, List.getElem?_cons_zero]
      · have hsub : cursor - n = cursor - (n + 1) + 1 := by omega
        rw [if_neg (by simpa using heq), firstStop_cursor cursor (n + 1) items (by omega), hsub,
          List.getElem?_cons_succ]

theorem startDir_startDir (dir : FatFile) : startDir (startDir dir) = startDir dir := by
  by_cases hroot : dir.fatDir.dirFstClusLO < 2
  · have hstart : startDir dir = { dir with fatDir := dir.fatDir.setFstClusLO 2 } := if_pos hroot
    have hLO : ¬ (startDir dir).fatDir.dirFstClusLO < 2 := by
      rw [hstart, DirEntry.dirFstClusLO_setFstClusLO]
      decide
    exact if_neg hLO
  · have hstart : startDir dir = dir := if_neg hroot
    rw [hstart, hstart]

/-- The handle of a directory in use, before a call. -/
def dirAt (dir : FatFile) (cursor : ℕ) : FatFile := { startDir dir with cursor := cursor }

theorem startDir_dirAt (dir : FatFile) (cursor : ℕ) :
    startDir (dirAt dir cursor) = dirAt dir cursor := by
  have hidem := startDir_startDir dir
  unfold dirAt
  unfold startDir at hidem ⊢
  dsimp only at hidem ⊢
  by_cases hroot : dir.fatDir.dirFstClusLO < 2
  · rw [if_pos hroot] at hidem ⊢
    dsimp only at hidem ⊢
    rw [if_neg]
    rw [DirEntry.dirFstClusLO_setFstClusLO]
    decide
  · rw [if_neg hroot, if_neg hroot]

/-- A call returns the item at the cursor and moves on, or there is none left. -/
theorem fatReaddir_spec (hg : Geometry g) {dir : FatFile} {cursor : ℕ} (hcursor : cursor < 2 ^ 31)
    (h : ListedAt g s.disk (startDir dir).fatDir.dirFstClusLO l items) :
    ∃ r s', fatReaddir g (dirAt dir cursor) s = some (r, s') ∧ s'.disk = s.disk ∧
      match items[cursor]? with
      | some i => Returns i (startDir dir).fatDir.dirFstClusLO r ∧
          r.rootDir = dirAt dir (cursor + 1)
      | none => r.found = .notFound ∧ r.rootDir = dirAt dir cursor := by
  have hbytes := h.chain.bytes_lt hg
  have hstart := startDir_dirAt dir cursor
  obtain ⟨directory, s₁, hlooked, hcovers, hwith⟩ := findWith_eq
    (findNested g 0) ⟨[], false, true, false⟩ hg (by rw [hstart]; exact h.chain)
  have hlen : (slots g s₁.disk l).length < 2 ^ 31 := by
    rw [length_slots]
    omega
  have hlayout := h.layout
  rw [← hlooked.disk] at hlayout
  obtain ⟨s₂, lf, hlooked₂, hresult⟩ := findLoop_first (findNested g 0) ⟨[], false, true, false⟩
    (dirAt dir cursor) hg (fun n _ => decide (n = cursor)) (itemResult (dirAt dir cursor)) hlayout
    loopBound 0 .zero
    fatFileDefault.longFilename
    (fun i _ n lf s _ => visitNamed_readdir (findNested g 0) rfl (dirAt dir cursor) i n lf s)
    hcovers hlooked.fresh List.drop_zero length_defaultName
    (hlen.trans (by decide)) (by omega)
  have hdisk := (hlooked.trans hlooked₂).disk
  have hcall : fatReaddir g (dirAt dir cursor) s =
      findLoop g (findNested g 0) ⟨[], false, true, false⟩ (dirAt dir cursor) directory loopBound
        (32 * 0) 0 false (scanned .zero fatFileDefault.longFilename) s₁ := by
    rw [hstart] at hwith
    exact hwith
  rw [firstStop_cursor cursor 0 items (Nat.zero_le _), Nat.sub_zero] at hresult
  rw [hcall]
  cases hitem : items[cursor]? with
  | none =>
      rw [hitem] at hresult
      obtain ⟨e, hloop⟩ := hresult
      exact ⟨_, s₂, hloop, hdisk, rfl, rfl⟩
  | some i =>
      rw [hitem] at hresult
      obtain ⟨hname, hloop⟩ := hresult
      have hcharacters := hname.characters (h.short i (List.mem_of_getElem? hitem))
      have hmoved : ({ dirAt dir cursor with cursor := u32 ((dirAt dir cursor).cursor + 1) } :
          FatFile) = dirAt dir (cursor + 1) := by
        show { dirAt dir cursor with cursor := u32 (cursor + 1) } = dirAt dir (cursor + 1)
        rw [u32_of_lt (by omega)]
        rfl
      by_cases hdirectory : i.entry.isDirectory = true
      · refine ⟨⟨.foundDir, i.handle (dirAt dir cursor).fatDir.dirFstClusLO lf, fatFileDefault,
          dirAt dir (cursor + 1)⟩, s₂, ?_, hdisk, ⟨?_, lf, hcharacters, ?_⟩, rfl⟩
        · rw [hloop, itemResult, if_pos hdirectory, hmoved]
        · rw [if_pos hdirectory]
        · rw [if_pos hdirectory]
          rfl
      · refine ⟨⟨.foundFile, scanned i.entry lf, i.handle (dirAt dir cursor).fatDir.dirFstClusLO lf,
          dirAt dir (cursor + 1)⟩, s₂, ?_, hdisk, ⟨?_, lf, hcharacters, ?_⟩, rfl⟩
        · rw [hloop, itemResult, if_neg hdirectory, hmoved]
        · rw [if_neg hdirectory]
        · rw [if_neg hdirectory]
          rfl

/-! ## All calls -/

theorem Layout.length_le {k : ℕ} {rest : List DirEntry} (h : Layout k rest items) :
    items.length ≤ rest.length := by
  induction h with
  | done => exact le_rfl
  | stop _ => exact Nat.zero_le _
  | deleted _ _ ih => exact ih.trans (Nat.le_succ _)
  | @item k used rest i items hitem _ ih =>
      have hused : 0 < used.length := by
        cases hitem <;> exact Nat.succ_pos _
      rw [List.length_cons, List.length_append]
      omega

theorem ListedAt.length_lt (hg : Geometry g) {disk : ℕ → UInt8} {cluster : ℕ}
    (h : ListedAt g disk cluster l items) : items.length < 2 ^ 31 := by
  have hbytes := FileChain.bytes_lt (s := ⟨disk, fun _ => 0, 0, [], []⟩) hg h.chain
  have hle := h.layout.length_le
  rw [length_slots] at hle
  omega

/-- What the calls from the item `cursor` on return. -/
def ReturnsFrom (items : List Item) (parentCluster cursor : ℕ) (rs : List FindResult) : Prop :=
  ∀ k r, rs[k]? = some r →
    match items[cursor + k]? with
    | some i => Returns i parentCluster r
    | none => r.found = .notFound

theorem readdirs_spec (hg : Geometry g) {dir : FatFile} :
    ∀ (n : ℕ) {cursor : ℕ} {s : State}, cursor ≤ items.length →
      ListedAt g s.disk (startDir dir).fatDir.dirFstClusLO l items →
        ∃ rs dir' s', readdirs g n (dirAt dir cursor) s = some (rs, dir', s') ∧
          s'.disk = s.disk ∧ rs.length = n ∧
          ReturnsFrom items (startDir dir).fatDir.dirFstClusLO cursor rs
  | 0, _, s, _, _ => ⟨[], _, s, rfl, rfl, rfl, fun k r hr => by simp at hr⟩
  | n + 1, cursor, s, hcursor, h => by
      have hlen := h.length_lt hg
      have hcursor' : cursor < 2 ^ 31 := by omega
      obtain ⟨r, s₁, hcall, hdisk, hr⟩ := fatReaddir_spec hg hcursor' h
      rw [← hdisk] at h
      rcases Option.eq_none_or_eq_some items[cursor]? with hitem | ⟨i, hitem⟩
      · -- the cursor stays where it is
        rw [hitem] at hr
        obtain ⟨hfound, hroot⟩ := hr
        obtain ⟨rs, dir', s₂, hrest, hdisk₂, hcount, hreturns⟩ := readdirs_spec hg n hcursor h
        refine ⟨r :: rs, dir', s₂, ?_, hdisk₂.trans hdisk, by rw [List.length_cons, hcount], ?_⟩
        · rw [readdirs, hcall, Option.bind_eq_bind, Option.bind_some]
          dsimp only
          rw [hroot, hrest]
          rfl
        · rintro (_ | k) r' hr'
          · rw [List.getElem?_cons_zero, Option.some_inj] at hr'
            rw [Nat.add_zero, hitem, ← hr']
            exact hfound
          · rw [List.getElem?_cons_succ] at hr'
            have hout : items.length ≤ cursor := List.getElem?_eq_none_iff.mp hitem
            have hnone := hreturns k r' hr'
            rw [List.getElem?_eq_none (by omega)] at hnone ⊢
            exact hnone
      · rw [hitem] at hr
        obtain ⟨hreturn, hroot⟩ := hr
        obtain ⟨hlt, -⟩ := List.getElem?_eq_some_iff.mp hitem
        obtain ⟨rs, dir', s₂, hrest, hdisk₂, hcount, hreturns⟩ :=
          readdirs_spec hg n (show cursor + 1 ≤ items.length from hlt) h
        refine ⟨r :: rs, dir', s₂, ?_, hdisk₂.trans hdisk, by rw [List.length_cons, hcount], ?_⟩
        · rw [readdirs, hcall, Option.bind_eq_bind, Option.bind_some]
          dsimp only
          rw [hroot, hrest]
          rfl
        · rintro (_ | k) r' hr'
          · rw [List.getElem?_cons_zero, Option.some_inj] at hr'
            rw [Nat.add_zero, hitem, ← hr']
            exact hreturn
          · rw [List.getElem?_cons_succ] at hr'
            have hlater := hreturns k r' hr'
            rwa [Nat.add_right_comm] at hlater

/-- A lookup does not see whether cluster 0 or the root directory is meant. -/
theorem findWith_startDir (find : Find) (q : Query) (dir : FatFile) (s : State) :
    findWith g find q (startDir dir) s = findWith g find q dir s := by
  unfold findWith
  rw [startDir_startDir]

theorem startDir_rewinddir (dir : FatFile) : startDir (fatRewinddir dir) = dirAt dir 0 := by
  unfold dirAt startDir fatRewinddir
  dsimp only
  split <;> rfl

theorem readdirs_rewinddir (n : ℕ) (dir : FatFile) (s : State) :
    (readdirs g n (fatRewinddir dir) s).map (fun r => (r.1, r.2.2)) =
      (readdirs g n (dirAt dir 0) s).map fun r => (r.1, r.2.2) := by
  cases n with
  | zero => rfl
  | succ n =>
      have hfirst : fatReaddir g (fatRewinddir dir) s = fatReaddir g (dirAt dir 0) s := by
        rw [← startDir_rewinddir]
        exact (findWith_startDir (findNested g 0) ⟨[], false, true, false⟩ _ s).symm
      rw [readdirs, readdirs, hfirst]

/-- After `fat_rewinddir` the calls of `fat_readdir` return the items of a directory
one after the other, each once, and then nothing any more. -/
theorem fatReaddir_enumerates (hg : Geometry g) {dir : FatFile}
    (h : ListedAt g s.disk (startDir dir).fatDir.dirFstClusLO l items) (n : ℕ) :
    ∃ rs dir' s', readdirs g n (fatRewinddir dir) s = some (rs, dir', s') ∧ s'.disk = s.disk ∧
      rs.length = n ∧ ∀ (k : ℕ) (r : FindResult), rs[k]? = some r →
        match items[k]? with
        | some i => Returns i (startDir dir).fatDir.dirFstClusLO r
        | none => r.found = .notFound := by
  obtain ⟨rs, dir₁, s₁, hrun, hdisk, hcount, hreturns⟩ :=
    readdirs_spec hg n (Nat.zero_le _) h
  have hrewind := readdirs_rewinddir (g := g) n dir s
  rw [hrun, Option.map_some] at hrewind
  obtain ⟨⟨rs', dir', s'⟩, hrun', heq⟩ := Option.map_eq_some_iff.mp hrewind
  obtain ⟨rfl, rfl⟩ := Prod.mk.inj heq
  refine ⟨_, dir', _, hrun', hdisk, hcount, ?_⟩
  intro k r hr
  have hreturn := hreturns k r hr
  rwa [Nat.zero_add] at hreturn

/-- The theorem at three calls on the root directory with the file `A`. -/
theorem fatReaddir_enumerates_listed : ∃ rs dir' s',
    readdirs smallVolume 3 (fatRewinddir fatFileDefault) listedState = some (rs, dir', s') ∧
      rs.map FindResult.found = [.foundFile, .notFound, .notFound] := by
  have hstart : (startDir fatFileDefault).fatDir.dirFstClusLO = 2 := by decide +kernel
  obtain ⟨rs, dir', s', hrun, -, hcount, hreturns⟩ := fatReaddir_enumerates (s := listedState)
    (l := [2]) smallVolume_geometry
    (by rw [hstart]; exact rootDirectory_listed.listedAt) 3
  match rs, hcount with
  | [r₀, r₁, r₂], _ =>
      refine ⟨_, dir', s', hrun, ?_⟩
      have hfile : ¬ itemA.entry.isDirectory = true := by decide
      have hfirst := (hreturns 0 r₀ rfl).found
      rw [if_neg hfile] at hfirst
      have hsecond : r₁.found = .notFound := hreturns 1 r₁ rfl
      have hthird : r₂.found = .notFound := hreturns 2 r₂ rfl
      rw [List.map_cons, List.map_cons, List.map_cons, hfirst, hsecond, hthird]
      rfl

end Neos.Fat
