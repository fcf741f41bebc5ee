import Neos.Fat.Scan

/-!
# Finding a path

`fat_find` on well-formed directories is the walk along the components of the
path: each component but the last names a directory, and the last one names the
file or the directory that is asked for.
-/

namespace Neos.Fat

open ByteRange

variable {g : Bpb} {s : State} {l : List ℕ} {k : ℕ}

/-! ## The item that decides a lookup -/

namespace Item

/-- The length that `path_compare` returns for an item. -/
def matchLength (path : List UInt8) (i : Item) : ℕ :=
  if i.Answers (component path) then i.name.length else 0

/-- The item ends the scan for a path: it is what the path names, or a directory on
the way. -/
def Decides (q : Query) (i : Item) : Prop :=
  0 < i.matchLength q.path ∧
    if i.entry.isDirectory then q.path.length = i.matchLength q.path → q.isFile = false
    else q.isFile = true ∧ q.path.length = i.matchLength q.path

instance (q : Query) (i : Item) : Decidable (i.Decides q) := by
  unfold Decides
  infer_instance

/-- The handle on an item in the directory with the given first cluster. -/
def handle (i : Item) (parentCluster : ℕ) (lf : List ℕ) : FatFile :=
  place (scanned i.entry lf) (32 * i.slot) parentCluster i.long.isSome

end Item

section Lookup

variable (find : Find) (q : Query) (rootDir : FatFile)

/-- The result for the item that ends the scan. -/
def answer (i : Item) (lf : List ℕ) (s : State) : Option (FindResult × State) :=
  if i.entry.isDirectory then
    if q.path.length = (i.view q.useShortname).matchLength q.path then
      some (⟨.foundDir, i.handle rootDir.fatDir.dirFstClusLO lf, fatFileDefault, rootDir⟩, s)
    else
      (find { q with path := q.path.drop ((i.view q.useShortname).matchLength q.path + 1) }
        (scanned i.entry lf) s).bind fun r => some ({ r.1 with rootDir := rootDir }, r.2)
  else
    some (⟨.foundFile, scanned i.entry lf, i.handle rootDir.fatDir.dirFstClusLO lf, rootDir⟩, s)

theorem pathCompare_item {i : Item} {lf : List ℕ}
    (hname : nameOf lf = (i.view q.useShortname).name) :
    pathCompare q.path lf (i.long.isSome && !q.useShortname) =
      (i.view q.useShortname).matchLength q.path := by
  have hcase : (i.long.isSome && !q.useShortname) = (i.view q.useShortname).long.isSome := by
    cases q.useShortname
    · exact Bool.and_true _
    · exact Bool.and_false _
  rw [pathCompare_eq, hname, hcase]
  rfl

/-- A visit ends the scan with the result for the item, or it lets the scan go on. -/
theorem visitNamed_lookup (hmode : q.readAtCursor = false) {i : Item} {lf : List ℕ}
    (hname : nameOf lf = (i.view q.useShortname).name) (entries : ℕ) (s : State) :
    visitNamed find q rootDir (32 * i.slot) entries i.long.isSome (scanned i.entry lf) s =
      if (i.view q.useShortname).Decides q then
        (answer find q rootDir i lf s).bind fun r => some (.stop r.1, r.2)
      else some (.next (scanned i.entry lf), s) := by
  have hdecides : (i.view q.useShortname).Decides q ↔
      0 < (i.view q.useShortname).matchLength q.path ∧
        if i.entry.isDirectory then
          q.path.length = (i.view q.useShortname).matchLength q.path → q.isFile = false
        else q.isFile = true ∧ q.path.length = (i.view q.useShortname).matchLength q.path := by
    cases q.useShortname <;> rfl
  have hcompare := pathCompare_item q hname
  have hlf : (scanned i.entry lf).longFilename = lf := rfl
  have hdir : (scanned i.entry lf).fatDir = i.entry := rfl
  unfold visitNamed
  dsimp only
  rw [hlf, hdir, hcompare, if_neg (Bool.eq_false_iff.mp hmode)]
  unfold answer
  generalize (i.view q.useShortname).matchLength q.path = length at hdecides ⊢
  by_cases hpos : 0 < length
  · rw [if_pos hpos]
    by_cases hdirectory : i.entry.isDirectory = true
    · rw [if_pos hdirectory] at hdecides ⊢
      by_cases hend : q.path.length = length
      · rw [if_pos hend]
        by_cases hfile : q.isFile = true
        · have hno : ¬ (i.view q.useShortname).Decides q := by
            intro h
            have hfalse := (hdecides.mp h).2 hend
            rw [hfile] at hfalse
            exact Bool.noConfusion hfalse
          rw [if_pos hfile, if_neg hno]
        · have hyes := hdecides.mpr ⟨hpos, fun _ => Bool.eq_false_iff.mpr hfile⟩
          rw [if_neg hfile, if_pos hyes, if_pos hdirectory, if_pos hend]
          rfl
      · have hyes := hdecides.mpr ⟨hpos, fun h => absurd h hend⟩
        rw [if_neg hend, if_pos hyes, if_pos hdirectory, if_neg hend, Option.bind_assoc]
        rfl
    · rw [if_neg hdirectory] at hdecides ⊢
      by_cases hfound : q.isFile = true ∧ q.path.length = length
      · rw [if_pos hfound, if_pos (hdecides.mpr ⟨hpos, hfound⟩), if_neg hdirectory]
        rfl
      · rw [if_neg hfound, if_neg (fun h => hfound (hdecides.mp h).2)]
  · rw [if_neg hpos, if_neg (fun h => hpos (hdecides.mp h).1)]

theorem firstStop_find (p : Item → Bool) :
    ∀ (n : ℕ) (items : List Item), firstStop (fun _ => p) n items = items.find? p
  | _, [] => rfl
  | n, i :: items => by
      rw [firstStop, firstStop_find p (n + 1) items, List.find?_cons]
      cases p i <;> rfl

/-- `fat_find_full` in a well-formed directory: no item decides the lookup, or the
result is that of the first one that does. -/
theorem findWith_lookup (hg : Geometry g) (hmode : q.readAtCursor = false) {items : List Item}
    (h : DirectoryAt g s.disk (startDir rootDir).fatDir.dirFstClusLO l items) :
    ∃ s' lf, Looked s s' ∧
      (((∀ i ∈ items, ¬ (i.view q.useShortname).Decides q) ∧
          ∃ e, findWith g find q rootDir s =
            some (⟨.notFound, scanned e lf, fatFileDefault, startDir rootDir⟩, s')) ∨
        ∃ i ∈ items, (i.view q.useShortname).Decides q ∧
          nameOf lf = (i.view q.useShortname).name ∧
          findWith g find q rootDir s = answer find q (startDir rootDir) i lf s') := by
  obtain ⟨directory, s₁, hlooked, hcovers, hwith⟩ := findWith_eq find q hg h.chain
  have hlen : (slots g s₁.disk l).length < loopBound := by
    have hbytes := h.chain.bytes_lt hg
    rw [length_slots, loopBound]
    omega
  have hlayout := h.layout
  rw [← hlooked.disk] at hlayout
  -- the scan stops at the first item that decides the lookup
  obtain ⟨s₂, lf, hlooked₂, hresult⟩ := findLoop_first find q (startDir rootDir) hg
    (fun _ i => decide ((i.view q.useShortname).Decides q)) (answer find q (startDir rootDir)) hlayout
    loopBound 0 .zero
    fatFileDefault.longFilename (by
      intro i hi n lf s hname
      rw [visitNamed_lookup find q (startDir rootDir) hmode (hname.nameOf (h.ascii i hi)) n s]
      simp only [decide_eq_true_eq]) hcovers hlooked.fresh List.drop_zero length_defaultName hlen
    (by rw [Nat.zero_add]; exact hlen)
  refine ⟨s₂, lf, hlooked.trans hlooked₂, ?_⟩
  rw [hwith]
  rw [firstStop_find] at hresult
  cases hfind : items.find? fun i => (i.view q.useShortname).Decides q with
  | none =>
      rw [hfind] at hresult
      refine .inl ⟨?_, hresult⟩
      intro i hi hdecides
      exact List.find?_eq_none.mp hfind i hi (decide_eq_true hdecides)
  | some i =>
      rw [hfind] at hresult
      have hdecides := List.find?_some hfind
      have hmem := List.mem_of_find?_eq_some hfind
      exact .inr ⟨i, hmem, of_decide_eq_true hdecides, hresult.1.nameOf (h.ascii i hmem), hresult.2⟩

end Lookup

end Neos.Fat
