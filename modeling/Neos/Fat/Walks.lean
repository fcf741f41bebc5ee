import Neos.Fat.Resolve

/-!
# Walking a directory tree

A directory tree lists the items of every directory by its first cluster.  A walk
follows the components of a path from directory to directory; `fat_find` finds
what the walk ends at.
-/

namespace Neos.Fat

open ByteRange

variable {g : Bpb} {s : State} {contents : ℕ → List Item} {dirs : Set ℕ}

/-! ## Paths -/

/-- The path with the given components. -/
def joinPath : List Name → List UInt8
  | [] => []
  | [name] => name
  | name :: rest => name ++ 0x2F :: joinPath rest

/-- A component of a path that is neither `"."` nor `".."`. -/
structure Ordinary (name : Name) : Prop where
  ne_nil : name ≠ []
  no_slash : ∀ c ∈ name, c ≠ 0x2F
  ne_dot : name ≠ [0x2E]
  ne_dotdot : name ≠ [0x2E, 0x2E]

theorem component_joinPath {name : Name} (h : Ordinary name) (rest : List Name) :
    component (joinPath (name :: rest)) = name := by
  have hall : ∀ c ∈ name, decide (c ≠ 0x2F) = true := by
    intro c hc
    exact decide_eq_true (h.no_slash c hc)
  cases rest with
  | nil =>
      rw [joinPath, component, List.takeWhile_eq_self_iff]
      exact hall
  | cons next rest =>
      rw [joinPath, component, List.takeWhile_append_of_pos hall, List.takeWhile_cons_of_neg
        (by decide), List.append_nil]
      exact List.cons_ne_nil _ _

theorem length_joinPath_cons (name next : Name) (rest : List Name) :
    (joinPath (name :: next :: rest)).length = name.length + 1 + (joinPath (next :: rest)).length := by
  rw [joinPath, List.length_append, List.length_cons]
  · omega
  · exact List.cons_ne_nil _ _

theorem drop_joinPath (name next : Name) (rest : List Name) :
    (joinPath (name :: next :: rest)).drop (name.length + 1) = joinPath (next :: rest) := by
  rw [joinPath, List.drop_append, List.drop_eq_nil_of_le (Nat.le_succ _), List.nil_append,
    Nat.add_sub_cancel_left]
  · rfl
  · exact List.cons_ne_nil _ _

/-! ## Trees -/

/-- A well-formed directory tree: `contents` lists the items of the directories
`dirs`, and every subdirectory is one of them.  No two items of a directory
answer to one name. -/
structure Tree (g : Bpb) (disk : ℕ → UInt8) (contents : ℕ → List Item) (dirs : Set ℕ) : Prop where
  directory : ∀ c ∈ dirs, ∃ l, DirectoryAt g disk c l (contents c)
  unique : ∀ c ∈ dirs, ∀ i ∈ contents c, ∀ j ∈ contents c, ∀ name, i.Answers name →
    j.Answers name → i = j
  subdirectory : ∀ c ∈ dirs, ∀ i ∈ contents c, i.entry.isDirectory = true → i.name ≠ [0x2E] →
    i.name ≠ [0x2E, 0x2E] → i.entry.dirFstClusLO ∈ dirs
  no_label : ∀ c ∈ dirs, ∀ i ∈ contents c, i.entry.dirAttr &&& 0x08 = 0

/-- The walk along components from the directory with first cluster `c` ends at an
item of the directory with first cluster `p`. -/
inductive Walks (contents : ℕ → List Item) : ℕ → List Name → Item → ℕ → Prop
  | last {c : ℕ} {name : Name} {i : Item} (hmem : i ∈ contents c) (hname : i.Answers name) :
      Walks contents c [name] i c
  | into {c p : ℕ} {name : Name} {rest : List Name} {d i : Item} (hmem : d ∈ contents c)
      (hname : d.Answers name) (hdir : d.entry.isDirectory = true)
      (hrest : Walks contents d.entry.dirFstClusLO rest i p) : Walks contents c (name :: rest) i p

/-- The result of a lookup is what the walk ends at, if that is of the kind asked
for, and it is not found otherwise. -/
structure Resolves (contents : ℕ → List Item) (start : ℕ) (path : List Name) (isFile : Bool)
    (r : FindResult) : Prop where
  found : ∀ i p, Walks contents start path i p → i.entry.isDirectory = !isFile →
    r.found = (if isFile then .foundFile else .foundDir) ∧
      ∃ lf, nameOf lf = i.name ∧ (if isFile then r.fileOut else r.subdirOut) = i.handle p lf
  not_found : (∀ i p, Walks contents start path i p → i.entry.isDirectory = isFile) →
    r.found = .notFound

theorem toLowercase_dot {c : UInt8} (h : toLowercase c = 0x2E) : c = 0x2E := by
  unfold toLowercase at h
  split at h
  · rename_i hupper
    have hlo : 0x41 ≤ c.toNat := UInt8.le_iff_toNat_le.mp hupper.1
    have hhi : c.toNat ≤ 0x5A := UInt8.le_iff_toNat_le.mp hupper.2
    have hsum := congrArg UInt8.toNat h
    rw [UInt8.toNat_add] at hsum
    change (c.toNat + 0x20) % 2 ^ 8 = 0x2E at hsum
    omega
  · exact h

theorem eq_dots_of_foldCase {cs : Bool} {name : Name} {n : ℕ}
    (h : foldCase cs name = foldCase cs (List.replicate n 0x2E)) : name = List.replicate n 0x2E := by
  cases cs with
  | true => exact h
  | false =>
      have hmap : name.map toLowercase = List.replicate n 0x2E := by
        have hdots : (List.replicate n (0x2E : UInt8)).map toLowercase = List.replicate n 0x2E := by
          rw [List.map_replicate]
          rfl
        exact h.trans hdots
      rw [List.eq_replicate_iff, List.length_map] at hmap
      rw [List.eq_replicate_iff]
      refine ⟨hmap.1, ?_⟩
      intro c hc
      exact toLowercase_dot (hmap.2 _ (List.mem_map_of_mem hc))

/-- Only `"."` and `".."` answer to these names. -/
theorem Item.Answers.ordinary {i : Item} {name : Name} (h : i.Answers name) (hname : Ordinary name) :
    i.name ≠ [0x2E] ∧ i.name ≠ [0x2E, 0x2E] := by
  unfold Item.Answers at h
  constructor
  · intro hdot
    rw [hdot] at h
    apply hname.ne_dot
    exact eq_dots_of_foldCase (n := 1) h
  · intro hdot
    rw [hdot] at h
    apply hname.ne_dotdot
    exact eq_dots_of_foldCase (n := 2) h

/-! ## Lookups -/

/-- An item that answers to the first component decides the lookup, if it is of the
kind asked for or on the way. -/
theorem Item.Answers.matchLength {i : Item} {name : Name} (h : i.Answers name)
    (hname : Ordinary name) (rest : List Name) :
    i.matchLength (joinPath (name :: rest)) = name.length ∧ 0 < name.length := by
  have hlen : i.name.length = name.length := by
    have heq := congrArg List.length h
    rw [length_foldCase, length_foldCase] at heq
    exact heq.symm
  refine ⟨?_, List.length_pos_iff.mpr hname.ne_nil⟩
  rw [Item.matchLength, component_joinPath hname, if_pos h, hlen]

theorem answers_of_matchLength_pos {i : Item} {path : List UInt8} (h : 0 < i.matchLength path) :
    i.Answers (component path) := by
  by_contra hno
  rw [Item.matchLength, if_neg hno] at h
  exact lt_irrefl 0 h

/-- At the last component an item of the kind asked for decides the lookup. -/
theorem decides_last {i : Item} {name : Name} (hname : Ordinary name) {isFile : Bool} :
    i.Decides ⟨joinPath [name], isFile, false, false⟩ ↔
      i.Answers name ∧ i.entry.isDirectory = !isFile := by
  constructor
  · rintro ⟨hpos, hkind⟩
    have hanswers := answers_of_matchLength_pos hpos
    dsimp only at hanswers hkind
    rw [component_joinPath hname] at hanswers
    rw [(hanswers.matchLength hname []).1] at hkind
    refine ⟨hanswers, ?_⟩
    by_cases hdir : i.entry.isDirectory = true
    · rw [if_pos hdir] at hkind
      rw [hdir, hkind rfl]
      rfl
    · rw [if_neg hdir] at hkind
      rw [Bool.eq_false_iff.mpr hdir, hkind.1]
      rfl
  · rintro ⟨hanswers, hkind⟩
    obtain ⟨hlen, hpos⟩ := hanswers.matchLength hname []
    refine ⟨hlen ▸ hpos, ?_⟩
    dsimp only
    rw [hlen, hkind]
    cases isFile
    · rw [if_pos (Bool.not_false)]
      exact fun _ => rfl
    · rw [if_neg (by decide)]
      exact ⟨rfl, rfl⟩

/-- Before the last component a directory decides the lookup. -/
theorem decides_into {i : Item} {name next : Name} {rest : List Name} (hname : Ordinary name)
    {isFile : Bool} :
    i.Decides ⟨joinPath (name :: next :: rest), isFile, false, false⟩ ↔
      i.Answers name ∧ i.entry.isDirectory = true := by
  have hlonger := length_joinPath_cons name next rest
  constructor
  · rintro ⟨hpos, hkind⟩
    have hanswers := answers_of_matchLength_pos hpos
    dsimp only at hanswers hkind
    rw [component_joinPath hname] at hanswers
    rw [(hanswers.matchLength hname _).1] at hkind
    refine ⟨hanswers, ?_⟩
    by_contra hdir
    rw [if_neg hdir] at hkind
    omega
  · rintro ⟨hanswers, hdir⟩
    obtain ⟨hlen, hpos⟩ := hanswers.matchLength hname (next :: rest)
    refine ⟨hlen ▸ hpos, ?_⟩
    dsimp only
    rw [hlen, if_pos hdir]
    intro heq
    omega

theorem Walks.last_inv {c p : ℕ} {name : Name} {i : Item} (h : Walks contents c [name] i p) :
    i ∈ contents c ∧ i.Answers name ∧ p = c := by
  cases h with
  | last hmem hname => exact ⟨hmem, hname, rfl⟩
  | into _ _ _ hrest => cases hrest

theorem Walks.into_inv {c p : ℕ} {name next : Name} {rest : List Name} {i : Item}
    (h : Walks contents c (name :: next :: rest) i p) :
    ∃ d ∈ contents c, d.Answers name ∧ d.entry.isDirectory = true ∧
      Walks contents d.entry.dirFstClusLO (next :: rest) i p := by
  cases h with
  | into hmem hname hdir hrest => exact ⟨_, hmem, hname, hdir, hrest⟩

/-- The last component is looked up in its directory. -/
theorem findWith_last (hg : Geometry g) (htree : Tree g s.disk contents dirs) (find : Find)
    {rootDir : FatFile} (hstart : (startDir rootDir).fatDir.dirFstClusLO ∈ dirs) {name : Name}
    (hname : Ordinary name) (isFile : Bool) :
    ∃ r s', findWith g find ⟨joinPath [name], isFile, false, false⟩ rootDir s = some (r, s') ∧
      s'.disk = s.disk ∧
      Resolves contents (startDir rootDir).fatDir.dirFstClusLO [name] isFile r := by
  obtain ⟨l, hdirectory⟩ := htree.directory _ hstart
  obtain ⟨s', lf, hlooked, hresult⟩ := findWith_lookup find ⟨joinPath [name], isFile, false, false⟩
    rootDir hg rfl hdirectory
  rcases hresult with ⟨hnone, e, hresult⟩ | ⟨i, hmem, hdecides, hlf, hresult⟩
  · refine ⟨_, s', hresult, hlooked.disk, ?_, fun _ => rfl⟩
    intro i p hwalk hkind
    obtain ⟨hi, hanswers, -⟩ := hwalk.last_inv
    exact absurd ((decides_last hname).mpr ⟨hanswers, hkind⟩) (hnone i hi)
  · obtain ⟨hanswers, hkind⟩ := (decides_last hname).mp hdecides
    have hend : (joinPath [name]).length = (i.view false).matchLength (joinPath [name]) :=
      (hanswers.matchLength hname []).1.symm
    have hkind' : i.entry.isDirectory = !isFile := hkind
    have hwalk : Walks contents (startDir rootDir).fatDir.dirFstClusLO [name] i
        (startDir rootDir).fatDir.dirFstClusLO := .last hmem hanswers
    -- No other item answers to the name.
    have honly : ∀ j p, Walks contents (startDir rootDir).fatDir.dirFstClusLO [name] j p →
        j = i ∧ p = (startDir rootDir).fatDir.dirFstClusLO := by
      intro j p hwalk'
      obtain ⟨hj, hanswers', hp⟩ := hwalk'.last_inv
      exact ⟨htree.unique _ hstart j hj i hmem name hanswers' hanswers, hp⟩
    unfold answer at hresult
    dsimp only at hresult
    rw [if_pos hend, hkind'] at hresult
    cases isFile with
    | true =>
        refine ⟨_, s', hresult, hlooked.disk, ?_, ?_⟩
        · intro j p hwalk' _
          obtain ⟨rfl, rfl⟩ := honly j p hwalk'
          exact ⟨rfl, lf, hlf, rfl⟩
        · intro hall
          rw [hall i _ hwalk] at hkind'
          exact Bool.noConfusion hkind'
    | false =>
        refine ⟨_, s', hresult, hlooked.disk, ?_, ?_⟩
        · intro j p hwalk' _
          obtain ⟨rfl, rfl⟩ := honly j p hwalk'
          exact ⟨rfl, lf, hlf, rfl⟩
        · intro hall
          rw [hall i _ hwalk] at hkind'
          exact Bool.noConfusion hkind'

/-- A component before the last one leads into its directory. -/
theorem findWith_into (hg : Geometry g) (htree : Tree g s.disk contents dirs) {find : Find}
    {rootDir : FatFile} (hstart : (startDir rootDir).fatDir.dirFstClusLO ∈ dirs)
    {name next : Name} {rest : List Name} (hname : Ordinary name) (isFile : Bool)
    (hfind : ∀ (dir : FatFile) {s' : State}, s'.disk = s.disk → dir.fatDir.dirFstClusLO ∈ dirs →
      ∃ r s'', find ⟨joinPath (next :: rest), isFile, false, false⟩ dir s' = some (r, s'') ∧
        s''.disk = s.disk ∧
          Resolves contents dir.fatDir.dirFstClusLO (next :: rest) isFile r) :
    ∃ r s', findWith g find ⟨joinPath (name :: next :: rest), isFile, false, false⟩ rootDir s =
        some (r, s') ∧ s'.disk = s.disk ∧
      Resolves contents (startDir rootDir).fatDir.dirFstClusLO (name :: next :: rest) isFile r := by
  obtain ⟨l, hdirectory⟩ := htree.directory _ hstart
  obtain ⟨s', lf, hlooked, hresult⟩ := findWith_lookup find
    ⟨joinPath (name :: next :: rest), isFile, false, false⟩ rootDir hg rfl hdirectory
  rcases hresult with ⟨hnone, e, hresult⟩ | ⟨d, hmem, hdecides, hlf, hresult⟩
  · refine ⟨_, s', hresult, hlooked.disk, ?_, fun _ => rfl⟩
    intro i p hwalk _
    obtain ⟨d, hd, hanswers, hdir, -⟩ := hwalk.into_inv
    exact absurd ((decides_into hname).mpr ⟨hanswers, hdir⟩) (hnone d hd)
  · obtain ⟨hanswers, hdir⟩ := (decides_into hname).mp hdecides
    obtain ⟨hlen, -⟩ := hanswers.matchLength hname (next :: rest)
    have hmore : ¬ (joinPath (name :: next :: rest)).length =
        (d.view false).matchLength (joinPath (name :: next :: rest)) := by
      rw [hlen, length_joinPath_cons]
      omega
    have hdir' : d.entry.isDirectory = true := hdir
    -- The directory is one of the tree, and the only one that answers.
    obtain ⟨hdot, hdotdot⟩ := hanswers.ordinary hname
    have hsub := htree.subdirectory _ hstart d hmem hdir' hdot hdotdot
    obtain ⟨r, s'', hinner, hdisk, hresolves⟩ := hfind (scanned d.entry lf) hlooked.disk hsub
    have honly : ∀ i p, Walks contents (startDir rootDir).fatDir.dirFstClusLO
        (name :: next :: rest) i p → Walks contents d.entry.dirFstClusLO (next :: rest) i p := by
      intro i p hwalk
      obtain ⟨d', hd', hanswers', -, hrest⟩ := hwalk.into_inv
      rwa [htree.unique _ hstart d' hd' d hmem name hanswers' hanswers] at hrest
    unfold answer at hresult
    dsimp only at hresult
    rw [if_pos hdir', if_neg hmore, hlen, drop_joinPath, hinner] at hresult
    refine ⟨_, s'', hresult, hdisk, ?_, ?_⟩
    · intro i p hwalk hkind
      exact hresolves.found i p (honly i p hwalk) hkind
    · intro hall
      apply hresolves.not_found
      intro i p hwalk
      exact hall i p (.into hmem hanswers hdir' hwalk)

/-- A search that is nested deep enough finds what the walk ends at. -/
theorem findNested_resolves (hg : Geometry g) (isFile : Bool) :
    ∀ (path : List Name) (depth : ℕ) {s : State} (rootDir : FatFile),
      Tree g s.disk contents dirs → path ≠ [] → (∀ name ∈ path, Ordinary name) →
        path.length ≤ depth → (startDir rootDir).fatDir.dirFstClusLO ∈ dirs →
          ∃ r s', findNested g depth ⟨joinPath path, isFile, false, false⟩ rootDir s =
              some (r, s') ∧ s'.disk = s.disk ∧
            Resolves contents (startDir rootDir).fatDir.dirFstClusLO path isFile r := by
  intro path
  induction path with
  | nil => exact fun _ _ _ _ hne => absurd rfl hne
  | cons name rest ih =>
      intro depth s rootDir htree _ hpath hdepth hstart
      have hname := hpath name List.mem_cons_self
      obtain ⟨depth, rfl⟩ := Nat.exists_eq_succ_of_ne_zero (Nat.ne_of_gt
        (Nat.lt_of_lt_of_le (Nat.succ_pos rest.length) hdepth))
      rw [Nat.succ_eq_add_one, findNested]
      cases rest with
      | nil => exact findWith_last hg htree _ hstart hname isFile
      | cons next rest =>
          apply findWith_into hg htree hstart hname
          intro dir s' hdisk hdir
          have hstart' : startDir dir = dir := by
            obtain ⟨l, hdirectory⟩ := htree.directory _ hdir
            have hvalid := hdirectory.chain.valid _ hdirectory.chain.chain.head_mem
            rw [startDir, if_neg (not_lt.mpr hvalid.ge_two)]
          rw [← hdisk] at htree
          obtain ⟨r, s'', hfind, hsame, hresolves⟩ := ih depth dir htree (List.cons_ne_nil _ _)
            (fun n hn => hpath n (List.mem_cons_of_mem _ hn)) (Nat.le_of_succ_le_succ hdepth)
            (by rwa [hstart'])
          rw [hstart'] at hresolves
          exact ⟨r, s'', hfind, hsame.trans hdisk, hresolves⟩

theorem length_le_joinPath {path : List Name} (h : ∀ name ∈ path, Ordinary name) :
    path.length ≤ (joinPath path).length := by
  induction path with
  | nil => exact Nat.zero_le _
  | cons name rest ih =>
      have hpos := List.length_pos_iff.mpr (h name List.mem_cons_self).ne_nil
      cases rest with
      | nil => exact hpos
      | cons next rest =>
          have hle := ih fun n hn => h n (List.mem_cons_of_mem _ hn)
          rw [length_joinPath_cons, List.length_cons]
          omega

/-- On a well-formed directory tree `fat_find` finds the file (or the directory) at
which the walk along the path ends, and nothing when there is none. -/
theorem fatFind_resolves (hg : Geometry g) (htree : Tree g s.disk contents dirs)
    (rootDir : FatFile) (hstart : (startDir rootDir).fatDir.dirFstClusLO ∈ dirs)
    {path : List Name} (hne : path ≠ []) (hpath : ∀ name ∈ path, Ordinary name) (isFile : Bool) :
    ∃ r s', fatFind g rootDir (joinPath path) isFile false s = some (r, s') ∧
      s'.disk = s.disk ∧
      Resolves contents (startDir rootDir).fatDir.dirFstClusLO path isFile r := by
  have hlen := length_le_joinPath hpath
  rw [fatFind, fatFindFull]
  exact findNested_resolves hg isFile path _ rootDir htree hne hpath (hlen.trans (Nat.le_succ _)) hstart

/-! ## A small tree -/

/-- The entry of a file `A` in cluster 3. -/
def entryA : DirEntry where
  bytes := [0x41] ++ List.replicate 10 0x20 ++ [0x20] ++ List.replicate 14 0 ++ [3, 0, 100, 0, 0, 0]
  size := rfl

/-- The small volume with `A` in the root directory. -/
def listedState : State :=
  { smallState with disk := writeBytes smallState.disk (smallVolume.clusterOffset 2) entryA.bytes }

/-- The only item of the root directory. -/
def itemA : Item := ⟨entryA, 0, none⟩

theorem rootDirectory_listed :
    DirectoryAt smallVolume listedState.disk 2 [2] [itemA] where
  chain := by
    refine ⟨.last ?_, ?_⟩
    · have hmark : fatEntry smallVolume listedState.disk 2 = 0x0FFFFFFF := by decide +kernel
      rw [hmark]
      exact ⟨by decide, by decide⟩
    · intro c hc
      rw [List.mem_singleton.mp hc]
      exact ⟨by decide, by decide⟩
  layout := by
    have hcount : [2].length * smallVolume.clusterSize / 32 = 16 := by decide +kernel
    have hsplit : List.range 16 = 0 :: 1 :: List.range' 2 14 := rfl
    have hfirst : entryAt smallVolume listedState.disk [2] (32 * 0) = entryA :=
      DirEntry.ext_buffer (by decide +kernel)
    rw [slots, hcount, hsplit, List.map_cons, List.map_cons, hfirst]
    apply Layout.item (.short ⟨by decide, by decide, by decide⟩)
    apply Layout.stop
    decide +kernel
  ascii := by
    intro i hi
    rw [List.mem_singleton.mp hi]
    have hshort : (shortName itemA.entry).all (fun c => decide (c ≠ 0)) = true := by decide
    exact ⟨fun c hc => of_decide_eq_true (List.all_eq_true.mp hshort c hc),
      fun chars h => nomatch h⟩

theorem listedState_tree :
    Tree smallVolume listedState.disk (fun c => if c = 2 then [itemA] else []) {2} where
  directory c hc := by
    rw [Set.mem_singleton_iff.mp hc]
    exact ⟨[2], rootDirectory_listed⟩
  unique c hc i hi j hj _ _ _ := by
    rw [Set.mem_singleton_iff.mp hc] at hi hj
    rw [List.mem_singleton.mp hi, List.mem_singleton.mp hj]
  subdirectory c hc i hi hdir := by
    rw [Set.mem_singleton_iff.mp hc] at hi
    rw [List.mem_singleton.mp hi] at hdir
    exact absurd hdir (by decide)
  no_label c hc i hi := by
    rw [Set.mem_singleton_iff.mp hc] at hi
    rw [List.mem_singleton.mp hi]
    decide

/-- The path `a` finds the file `A` from the handle on cluster 0. -/
theorem fatFind_resolves_listed : ∃ r s',
    fatFind smallVolume fatFileDefault (joinPath [[0x61]]) true false listedState =
        some (r, s') ∧ r.found = .foundFile ∧ r.fileOut.entryPosition = 0 := by
  have hstart : (startDir fatFileDefault).fatDir.dirFstClusLO = 2 := by decide +kernel
  have hordinary : ∀ name ∈ [([0x61] : Name)], Ordinary name := by
    intro name hname
    rw [List.mem_singleton.mp hname]
    exact ⟨by decide, List.forall_mem_singleton.mpr (by decide), by decide, by decide⟩
  obtain ⟨r, s', hfind, -, hresolves⟩ := fatFind_resolves smallVolume_geometry listedState_tree
    fatFileDefault (by rw [hstart]; exact Set.mem_singleton _) (List.cons_ne_nil _ _)
    hordinary true
  rw [hstart] at hresolves
  obtain ⟨hfound, lf, -, hhandle⟩ := hresolves.found itemA 2
    (.last (List.mem_singleton.mpr rfl) (by decide)) (by decide)
  refine ⟨r, s', hfind, hfound, ?_⟩
  rw [if_pos rfl] at hhandle
  rw [hhandle]
  rfl

end Neos.Fat
