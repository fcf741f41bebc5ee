import Neos.Vfs.MountTrie

/-!
# Null pointers on the way

`vfs_findchld` reads through the first child of a node, also when there is
none, and `vfs_update` calls through the driver of a node, also when there is
none.  Where a walk is after a number of names depends only on the mount tree,
as long as the drivers accept; so does whether it meets one of the two.
-/

namespace Neos.Vfs

variable {W : Type}

/-! ## Where a name leads -/

/-- The node with a given parent and name. -/
def nodeBelow (nodes : List VNode) (parent : ℕ) (name : CString) : Option ℕ :=
  (List.range nodes.length).find? fun c =>
    c ≠ 0 ∧ nodes[c]?.map VNode.parent = some parent ∧ nodes[c]?.map VNode.name = some name

/-- A node and a depth below it. -/
abbrev Position := ℕ × ℤ

/-- Where a reference is. -/
def VRef.position (vref : VRef) : Position := (vref.node, vref.offset)

/-- Where a name leads when the drivers accept it. -/
def positionAfter (nodes : List VNode) (pos : Position) (name : CString) : Position :=
  if name = [46] then pos
  else if name = [46, 46] then
    if pos.2 > 0 then (pos.1, pos.2 - 1)
    else ((nodes[pos.1]?.map VNode.parent).getD 0, pos.2)
  else if pos.2 = 0 then
    match nodeBelow nodes pos.1 name with
    | some child => (child, pos.2)
    | none => (pos.1, pos.2 + 1)
  else (pos.1, pos.2 + 1)

/-- Entering a name goes through a null pointer: it is looked for among the
children of a node that has none, or it leads to a node without a driver. -/
def NullStep (nodes : List VNode) (pos : Position) (name : CString) : Prop :=
  (name ≠ [46] ∧ name ≠ [46, 46] ∧ pos.2 = 0 ∧ nodes[pos.1]?.bind VNode.child = none) ∨
    driverOf nodes (positionAfter nodes pos name).1 = none

/-- No name on the way goes through a null pointer. -/
def NullFreeAlong (nodes : List VNode) : Position → List CString → Prop
  | _, [] => True
  | pos, name :: names =>
      ¬ NullStep nodes pos name ∧ NullFreeAlong nodes (positionAfter nodes pos name) names

/-- A walk over names meets no null pointer: the node it starts from has a
driver, and no name goes through one. -/
def NullFree (nodes : List VNode) (pos : Position) (names : List CString) : Prop :=
  driverOf nodes pos.1 ≠ none ∧ NullFreeAlong nodes pos names

/-- The names `vfs_open` gets to enter: a name that is too long, or one too
many, ends the walk before the name in front of it is entered, or after it. -/
def enteredNames (path : CString) (flags : ℕ) : List CString :=
  (schedule flags 0 none (names path)).1.map Prod.fst

/-- The reference a walk starts from. -/
def sourceOf (relation : VRef) (path : CString) : VRef :=
  if charAt path 0 = slash then vfsRoot else relation

namespace Trie

variable {nodes : List VNode} {paths : List (List CString)} {children : ℕ → List ℕ}

/-- The node with a given parent and name lies one name further. -/
theorem nodeBelow_eq_some_iff (h : Trie nodes paths children) {n c : ℕ} {name : CString} :
    nodeBelow nodes n name = some c ↔
      ∃ path, paths[n]? = some path ∧ paths[c]? = some (path ++ [name]) := by
  -- what the search looks for
  have hkey : ∀ d, (d ≠ 0 ∧ nodes[d]?.map VNode.parent = some n ∧
      nodes[d]?.map VNode.name = some name) ↔
      ∃ path, paths[n]? = some path ∧ paths[d]? = some (path ++ [name]) := by
    intro d
    constructor
    · rintro ⟨hd, hparent, hname⟩
      obtain ⟨node, hnode, hnode'⟩ := Option.map_eq_some_iff.mp hparent
      rw [hnode] at hname
      obtain rfl := Option.some.inj hname
      obtain ⟨path, hpath, hchild⟩ := h.path_of_child hd hnode
      rw [hnode'] at hpath
      exact ⟨path, hpath, hchild⟩
    · rintro ⟨path, hn, hd⟩
      have hroot : d ≠ 0 := by
        rintro rfl
        rw [h.root] at hd
        simp at hd
      obtain ⟨node, hnode⟩ := h.node_of_path hd
      obtain ⟨path', hparent, hd'⟩ := h.path_of_child hroot hnode
      obtain ⟨rfl, rfl⟩ := List.append_singleton_inj.mp (Option.some.inj (hd.symm.trans hd'))
      have heq := h.index_unique hparent hn
      simp [hroot, hnode, heq]
  constructor
  · intro hfound
    have := List.find?_some hfound
    simp only [decide_eq_true_eq] at this
    exact (hkey c).mp this
  · intro hc
    obtain ⟨path, hn, hcpath⟩ := hc
    have hlt : c < nodes.length := by
      rw [← h.length_eq]
      exact (List.getElem?_eq_some_iff.mp hcpath).1
    have hsome : (nodeBelow nodes n name).isSome := by
      rw [nodeBelow, List.find?_isSome]
      exact ⟨c, List.mem_range.mpr hlt, decide_eq_true ((hkey c).mpr ⟨path, hn, hcpath⟩)⟩
    obtain ⟨d, hd⟩ := Option.isSome_iff_exists.mp hsome
    have hdkey := List.find?_some hd
    simp only [decide_eq_true_eq] at hdkey
    obtain ⟨path', hn', hdpath⟩ := (hkey d).mp hdkey
    rw [hn] at hn'
    cases hn'
    rw [hd, h.index_unique hdpath hcpath]

/-- The search of the code finds the same node. -/
theorem childNamed_eq {m : Mounts W} (h : Trie m.nodes paths children) (n : ℕ) (name : CString) :
    childNamed m n name = nodeBelow m.nodes n name := by
  apply Option.ext
  intro c
  rw [h.childNamed_eq_some_iff, h.nodeBelow_eq_some_iff]

end Trie

/-! ## One step -/

/-- Drivers whose roots can be loaded and whose references can be closed. -/
def Steady (m : Mounts W) : Prop :=
  ∀ d, (∀ vref w, ((m.drivers d).root vref w).1 = 0) ∧
    ∀ vref w, ((m.drivers d).close vref w).1 = 0

/-- Drivers that accept everything. -/
def Accepting (m : Mounts W) : Prop :=
  ∀ d, (∀ vref w, ((m.drivers d).root vref w).1 = 0) ∧
    (∀ vref w, ((m.drivers d).close vref w).1 = 0) ∧
    ∀ vref part flags w, ((m.drivers d).openPart vref part flags w).1 = 0

theorem Accepting.steady {m : Mounts W} (h : Accepting m) : Steady m :=
  fun d => ⟨(h d).1, (h d).2.1⟩

section Update

variable {m : Mounts W} {vref : VRef} {w : W}

/-- At a node with a driver `vfs_update` goes through, and stays there. -/
theorem vfsUpdate_of_driver (vref : VRef) (w : W) (h : driverOf m.nodes vref.node ≠ none) :
    ∃ o, vfsUpdate m vref w = some o ∧ o.vref.position = vref.position ∧
      (o.res = 0 → o.vref.driver ≠ none) ∧ (Steady m → o.res = 0) := by
  obtain ⟨driver, hdriver⟩ := Option.ne_none_iff_exists'.mp h
  obtain ⟨node, hnode, hnd⟩ := Option.bind_eq_some_iff.mp hdriver
  have henable : ∀ (v : VRef) (w : W), ∃ o, enable m node v w = some o ∧
      o.vref.position = v.position ∧ (o.res = 0 → o.vref.driver ≠ none) ∧
      (Steady m → o.res = 0) := by
    intro v w
    refine ⟨_, by rw [enable, hnd]; rfl, rfl, ?_, ?_⟩
    · intro _
      simp [VRef.store]
    · intro hacc
      exact (hacc driver).1 _ _
  rw [vfsUpdate, hnode]
  cases hv : vref.driver with
  | none => exact henable vref w
  | some old =>
      by_cases hsame : node.driver = some old
      · refine ⟨⟨0, vref, w⟩, ?_, rfl, ?_, fun _ => rfl⟩
        · simp [hsame]
        · intro _
          simp [hv]
      · by_cases hclose : ((m.drivers old).close vref w).1 = 0
        · obtain ⟨o, ho, hpos, hdr, hacc⟩ := henable
            (vref.store ((m.drivers old).close vref w)).vref ((m.drivers old).close vref w).2.2
          refine ⟨o, ?_, hpos, hdr, hacc⟩
          simpa [hv, hsame, VRef.store, hclose] using ho
        · refine ⟨vref.store ((m.drivers old).close vref w), ?_, rfl, ?_, ?_⟩
          · simp [hv, hsame, VRef.store, hclose]
          · intro hres
            exact absurd hres hclose
          · intro hacc
            exact absurd ((hacc old).2 vref w) hclose

/-- At a node without one it calls through a null pointer. -/
theorem vfsUpdate_of_no_driver (hacc : Accepting m) (h : driverOf m.nodes vref.node = none) :
    vfsUpdate m vref w = none := by
  rw [vfsUpdate]
  cases hnode : m.nodes[vref.node]? with
  | none => rfl
  | some node =>
      have hnd : node.driver = none := by simpa [driverOf, hnode] using h
      cases hv : vref.driver with
      | none => simp [enable, hnd]
      | some old =>
          have hclose := (hacc old).2.1 vref w
          simp [hv, hnd, enable, VRef.store, hclose]

/-- The same for an update followed by the driver's `open`. -/
theorem updateAndOpen_of_driver (vref : VRef) (part : CString) (flags : ℕ) (w : W)
    (h : driverOf m.nodes vref.node ≠ none) :
    ∃ o, updateAndOpen m vref part flags w = some o ∧ o.vref.position = vref.position ∧
      (Accepting m → o.res = 0) := by
  obtain ⟨o, ho, hpos, hdriver, hacc⟩ := vfsUpdate_of_driver vref w h
  rw [updateAndOpen, ho]
  by_cases hres : o.res = 0
  · obtain ⟨driver, hd⟩ := Option.ne_none_iff_exists'.mp (hdriver hres)
    refine ⟨o.vref.store ((m.drivers driver).openPart o.vref part flags o.world), ?_, hpos, ?_⟩
    · simp [hres, openPart, hd]
    · intro hall
      exact (hall driver).2.2 _ _ _ _
  · exact ⟨o, by simp [hres], hpos, fun hall => hacc hall.steady⟩

end Update

section Enter

variable {m : Mounts W} {paths : List (List CString)} {children : ℕ → List ℕ} {vref : VRef} {w : W}

theorem vfsEnter_dot (flags : ℕ) : vfsEnter m vref [46] flags w = some ⟨0, vref, w⟩ := by
  simp [vfsEnter]

theorem vfsEnter_up (flags : ℕ) (h : vref.offset > 0) :
    vfsEnter m vref [46, 46] flags w =
      updateAndOpen m { vref with offset := vref.offset - 1 } [46, 46] flags w := by
  simp [vfsEnter, h]

theorem vfsEnter_out {node : VNode} (hnode : m.nodes[vref.node]? = some node) (flags : ℕ)
    (h : ¬ vref.offset > 0) :
    vfsEnter m vref [46, 46] flags w = vfsUpdate m { vref with node := node.parent } w := by
  simp [vfsEnter, h, hnode]

theorem vfsEnter_below {part : CString} (flags : ℕ) (hdot : part ≠ [46])
    (hdots : part ≠ [46, 46]) (h : vref.offset ≠ 0) :
    vfsEnter m vref part flags w =
      updateAndOpen m { vref with offset := vref.offset + 1 } part flags w := by
  simp [vfsEnter, hdot, hdots, h]

/-- At a mount node with children the name is looked for among them. -/
theorem vfsEnter_top (h : Trie m.nodes paths children) {part : CString} (flags : ℕ)
    (hdot : part ≠ [46]) (hdots : part ≠ [46, 46]) (hoffset : vref.offset = 0)
    (hchild : m.nodes[vref.node]?.bind VNode.child ≠ none) :
    vfsEnter m vref part flags w =
      match nodeBelow m.nodes vref.node part with
      | some child => vfsUpdate m { vref with node := child } w
      | none => updateAndOpen m { vref with offset := vref.offset + 1 } part flags w := by
  cases hnode : m.nodes[vref.node]? with
  | none => simp [hnode] at hchild
  | some node =>
      rw [hnode] at hchild
      rw [← h.childNamed_eq]
      rcases h.vfsFindchld_cases hnode hchild part with
        ⟨c, _, _, _, _, heq⟩ | ⟨_, _, last, _, heq⟩
      · simp [vfsEnter, hdot, hdots, hoffset, heq, childNamed]
      · simp [vfsEnter, hdot, hdots, hoffset, heq, childNamed]

/-- At a mount node without children the search meets a null pointer. -/
theorem vfsEnter_childless {part : CString} (flags : ℕ) (hdot : part ≠ [46])
    (hdots : part ≠ [46, 46]) (hoffset : vref.offset = 0)
    (hchild : m.nodes[vref.node]?.bind VNode.child = none) :
    vfsEnter m vref part flags w = none := by
  cases hnode : m.nodes[vref.node]? with
  | none => simp [vfsEnter, hdot, hdots, hoffset, vfsFindchld, hnode]
  | some node =>
      rw [hnode] at hchild
      simp [vfsEnter, hdot, hdots, hoffset, Trie.vfsFindchld_eq_none hnode hchild]

/-- Where the reference is moved to before the driver of its node is looked
at. -/
def VRef.moveTo (vref : VRef) (pos : Position) : VRef :=
  { vref with node := pos.1, offset := pos.2 }

/-- A step that does not look for a name below a childless node does nothing, or
moves the reference and calls `vfs_update`, with or without `open`. -/
theorem vfsEnter_cases (h : Trie m.nodes paths children) {part : CString} (flags : ℕ) (w : W)
    (hnode : vref.node < m.nodes.length)
    (hchild : ¬ (part ≠ [46] ∧ part ≠ [46, 46] ∧ vref.offset = 0 ∧
      m.nodes[vref.node]?.bind VNode.child = none)) :
    (positionAfter m.nodes vref.position part = vref.position ∧
      vfsEnter m vref part flags w = some ⟨0, vref, w⟩) ∨
    vfsEnter m vref part flags w =
      vfsUpdate m (vref.moveTo (positionAfter m.nodes vref.position part)) w ∨
    vfsEnter m vref part flags w =
      updateAndOpen m (vref.moveTo (positionAfter m.nodes vref.position part)) part flags w := by
  by_cases hdot : part = [46]
  · subst hdot
    exact Or.inl ⟨by simp [positionAfter], vfsEnter_dot flags⟩
  right
  by_cases hdots : part = [46, 46]
  · subst hdots
    by_cases hoffset : vref.offset > 0
    · right
      simp [vfsEnter_up flags hoffset, positionAfter, VRef.position, VRef.moveTo, hoffset]
    · left
      have hget := List.getElem?_eq_getElem hnode
      simp [vfsEnter_out hget flags hoffset, positionAfter, VRef.position, VRef.moveTo, hoffset,
        hget]
  by_cases hoffset : vref.offset = 0
  · have hsome : m.nodes[vref.node]?.bind VNode.child ≠ none := by
      intro hnone
      exact hchild ⟨hdot, hdots, hoffset, hnone⟩
    rw [vfsEnter_top h flags hdot hdots hoffset hsome]
    cases hbelow : nodeBelow m.nodes vref.node part with
    | some child =>
        left
        simp [positionAfter, VRef.position, VRef.moveTo, hdot, hdots, hoffset, hbelow]
    | none =>
        right
        simp [positionAfter, VRef.position, VRef.moveTo, hdot, hdots, hoffset, hbelow]
  · right
    simp [vfsEnter_below flags hdot hdots hoffset, positionAfter, VRef.position, VRef.moveTo,
      hdot, hdots, hoffset]

theorem node_lt_of_driver {nodes : List VNode} {n : ℕ} (h : driverOf nodes n ≠ none) :
    n < nodes.length := by
  by_contra hge
  exact h (by simp [driverOf, List.getElem?_eq_none (Nat.le_of_not_lt hge)])

/-- A step that meets no null pointer leads where the mount tree says. -/
theorem vfsEnter_of_not_nullStep (h : Trie m.nodes paths children) {part : CString} (flags : ℕ)
    (w : W) (hdriver : driverOf m.nodes vref.node ≠ none)
    (hstep : ¬ NullStep m.nodes vref.position part) :
    ∃ o, vfsEnter m vref part flags w = some o ∧
      o.vref.position = positionAfter m.nodes vref.position part ∧ (Accepting m → o.res = 0) := by
  obtain ⟨hchild, hafter⟩ := not_or.mp hstep
  rcases vfsEnter_cases h flags w (node_lt_of_driver hdriver) hchild with
    ⟨hstay, heq⟩ | heq | heq
  · exact ⟨_, heq, hstay.symm, fun _ => rfl⟩
  · obtain ⟨o, ho, hpos, _, hacc⟩ := vfsUpdate_of_driver
      (vref.moveTo (positionAfter m.nodes vref.position part)) w hafter
    exact ⟨o, heq.trans ho, hpos, fun hall => hacc hall.steady⟩
  · obtain ⟨o, ho, hpos, hacc⟩ := updateAndOpen_of_driver
      (vref.moveTo (positionAfter m.nodes vref.position part)) part flags w hafter
    exact ⟨o, heq.trans ho, hpos, hacc⟩

/-- A step that meets one has no defined effect. -/
theorem vfsEnter_of_nullStep (h : Trie m.nodes paths children) (hacc : Accepting m)
    {part : CString} (flags : ℕ) (w : W) (hdriver : driverOf m.nodes vref.node ≠ none)
    (hstep : NullStep m.nodes vref.position part) : vfsEnter m vref part flags w = none := by
  by_cases hchild : part ≠ [46] ∧ part ≠ [46, 46] ∧ vref.offset = 0 ∧
      m.nodes[vref.node]?.bind VNode.child = none
  · exact vfsEnter_childless flags hchild.1 hchild.2.1 hchild.2.2.1 hchild.2.2.2
  have hafter := hstep.resolve_left hchild
  have hnone : ∀ w, vfsUpdate m
      (vref.moveTo (positionAfter m.nodes vref.position part)) w = none :=
    fun w => vfsUpdate_of_no_driver hacc hafter
  rcases vfsEnter_cases h flags w (node_lt_of_driver hdriver) hchild with
    ⟨hstay, _⟩ | heq | heq
  · rw [hstay] at hafter
    exact absurd hafter hdriver
  · rw [heq, hnone]
  · rw [heq, updateAndOpen, hnone]
    rfl

end Enter

/-! ## A whole walk -/

section Walk

variable {m : Mounts W} {paths : List (List CString)} {children : ℕ → List ℕ}

/-- A walk that meets no null pointer ends. -/
theorem enterAll_of_nullFree (h : Trie m.nodes paths children) :
    ∀ (steps : List PathStep) (vref : VRef) (w : W),
      NullFree m.nodes vref.position (steps.map Prod.fst) → enterAll m steps vref w ≠ none
  | [], _, _, _ => by simp [enterAll]
  | step :: steps, vref, w, ⟨hdriver, hstep, hrest⟩ => by
      obtain ⟨o, ho, hpos, _⟩ := vfsEnter_of_not_nullStep h step.2 w hdriver hstep
      rw [enterAll, ho]
      by_cases hres : o.res = 0
      · have hafter : driverOf m.nodes o.vref.position.1 ≠ none := by
          rw [hpos]
          exact (not_or.mp hstep).2
        have := enterAll_of_nullFree h steps o.vref o.world ⟨hafter, by rw [hpos]; exact hrest⟩
        simpa [hres] using this
      · simp [hres]

/-- A walk that meets one has no defined effect, when the drivers accept. -/
theorem enterAll_of_not_nullFree (h : Trie m.nodes paths children) (hacc : Accepting m) :
    ∀ (steps : List PathStep) (vref : VRef) (w : W), driverOf m.nodes vref.node ≠ none →
      ¬ NullFreeAlong m.nodes vref.position (steps.map Prod.fst) → enterAll m steps vref w = none
  | [], _, _, _, hnot => absurd trivial hnot
  | step :: steps, vref, w, hdriver, hnot => by
      rw [enterAll]
      by_cases hstep : NullStep m.nodes vref.position step.1
      · rw [vfsEnter_of_nullStep h hacc step.2 w hdriver hstep]
        rfl
      obtain ⟨o, ho, hpos, hres⟩ := vfsEnter_of_not_nullStep h step.2 w hdriver hstep
      have hafter : driverOf m.nodes o.vref.node ≠ none := by
        have := (not_or.mp hstep).2
        rwa [← hpos] at this
      have hrest : ¬ NullFreeAlong m.nodes o.vref.position (steps.map Prod.fst) := by
        rw [hpos]
        exact fun hfree => hnot ⟨hstep, hfree⟩
      rw [ho]
      have := enterAll_of_not_nullFree h hacc steps o.vref o.world hafter hrest
      simp [hres hacc, this]

theorem copied_position (src : VRef) (w : W) :
    (vfsRefcpy m src w).1.position = src.position := by
  unfold vfsRefcpy
  dsimp only
  cases src.driver <;> rfl

/-- `vfs_open` meets no null pointer, or always does. -/
theorem vfsOpen_eq_none (h : Trie m.nodes paths children) (relation : VRef) (path : CString)
    (flags : ℕ) (w : W) :
    (NullFree m.nodes (sourceOf relation path).position (enteredNames path flags) →
      vfsOpen m relation path flags w ≠ none) ∧
    (Accepting m → ¬ NullFree m.nodes (sourceOf relation path).position (enteredNames path flags) →
      vfsOpen m relation path flags w = none) := by
  have hpos := copied_position (m := m) (sourceOf relation path) w
  rw [vfsOpen_eq, start]
  constructor
  · intro hfree
    have hdriver : driverOf m.nodes (vfsRefcpy m (sourceOf relation path) w).1.node ≠ none := by
      have := hfree.1
      rwa [← hpos] at this
    obtain ⟨o, ho, hopos, _⟩ := vfsUpdate_of_driver _
      (vfsRefcpy m (sourceOf relation path) w).2 hdriver
    rw [sourceOf] at ho
    rw [ho]
    rw [← hpos, ← hopos] at hfree
    have := enterAll_of_nullFree h (schedule flags 0 none (names path)).1 o.vref o.world hfree
    simpa using this
  · intro hacc hnot
    by_cases hdriver : driverOf m.nodes (vfsRefcpy m (sourceOf relation path) w).1.node = none
    · have := vfsUpdate_of_no_driver (w := (vfsRefcpy m (sourceOf relation path) w).2) hacc hdriver
      rw [sourceOf] at this
      rw [this]
      rfl
    obtain ⟨o, ho, hopos, _⟩ := vfsUpdate_of_driver _
      (vfsRefcpy m (sourceOf relation path) w).2 hdriver
    rw [sourceOf] at ho
    rw [ho]
    rw [← hpos, ← hopos] at hnot
    have hstart : driverOf m.nodes o.vref.node ≠ none := by
      have : o.vref.node = (vfsRefcpy m (sourceOf relation path) w).1.node :=
        congrArg Prod.fst hopos
      rwa [this]
    have := enterAll_of_not_nullFree h hacc (schedule flags 0 none (names path)).1 o.vref o.world
      hstart fun hfree => hnot ⟨hstart, hfree⟩
    simp [this]

end Walk

/-! ## Every mount tree -/

/-- In every tree that was mounted, from every reference and with every path,
`vfs_open` meets no null pointer, whatever the drivers answer, exactly when the
path leads over nodes that have drivers and looks for no name below a mount node
that has no children.  Otherwise it meets one as soon as the drivers accept. -/
theorem vfsOpen_never_null_iff {drivers : ℕ → FilesystemDriver W} {mounts : List (CString × ℕ)}
    {m : Mounts W} (hbuilt : vfsMountAll (vfsInit drivers) mounts = some m) (relation : VRef)
    (path : CString) (flags : ℕ) :
    ((∀ (V : Type) (answers : ℕ → FilesystemDriver V) (v : V),
        vfsOpen ⟨m.nodes, answers⟩ relation path flags v ≠ none) ↔
      NullFree m.nodes (sourceOf relation path).position (enteredNames path flags)) ∧
    (Accepting m → ∀ w, (vfsOpen m relation path flags w ≠ none ↔
      NullFree m.nodes (sourceOf relation path).position (enteredNames path flags))) := by
  obtain ⟨m', paths, children, hbuilt', _, hholds⟩ :=
    vfsMountAll_holds drivers (absolute_of_vfsMountAll hbuilt)
  rw [hbuilt] at hbuilt'
  cases hbuilt'
  have hnone := fun w => vfsOpen_eq_none hholds.trie relation path flags w
  refine ⟨⟨?_, ?_⟩, ?_⟩
  · intro hall
    by_contra hnot
    have hquiet : Accepting (⟨m.nodes, fun _ => quietDriver⟩ : Mounts Unit) :=
      fun _ => ⟨fun _ _ => rfl, fun _ _ => rfl, fun _ _ _ _ => rfl⟩
    have hdead := vfsOpen_eq_none (m := ⟨m.nodes, fun _ => quietDriver⟩) hholds.trie relation path
      flags ()
    exact hall Unit _ () (hdead.2 hquiet hnot)
  · intro hfree V answers v
    exact (vfsOpen_eq_none (m := ⟨m.nodes, answers⟩) hholds.trie relation path flags v).1 hfree
  · intro hacc w
    refine ⟨?_, (hnone w).1⟩
    intro hopen
    by_contra hnot
    exact hopen ((hnone w).2 hacc hnot)

/-- The theorem at `/` mounted alone and the path `/.`. -/
theorem vfsOpen_never_null_iff_root :
    ∃ m : Mounts Unit, vfsMountAll (vfsInit fun _ => quietDriver) [([47], 1)] = some m ∧
      vfsOpen m vfsRoot [47, 46] 0 () ≠ none := by
  refine ⟨_, rfl, ?_⟩
  have hbuilt : vfsMountAll (vfsInit fun _ => quietDriver) [([47], 1)] =
      some ⟨[⟨none, none, 0, some 1, [114, 111, 111, 116]⟩], fun _ => quietDriver⟩ := rfl
  have hnames : names [47, 46] = [[46]] := by
    rw [names, sections_cons (by decide), sections_nil (by decide)]
    rfl
  refine ((vfsOpen_never_null_iff hbuilt vfsRoot [47, 46] 0).2 ?_ ()).mpr ?_
  · exact fun _ => ⟨fun _ _ => rfl, fun _ _ => rfl, fun _ _ _ _ => rfl⟩
  · rw [enteredNames, hnames]
    refine ⟨by decide, ?_, trivial⟩
    rintro (⟨hdot, _⟩ | hdriver)
    · exact hdot rfl
    · exact absurd hdriver (by decide)

/-- With `/proc/` and `/` mounted, as the kernel does, opening `/proc/self`
looks for `self` below a node without children; with only `/a/b` mounted, `/`
has no driver. -/
theorem vfsOpen_meets_null :
    (∃ m : Mounts Unit,
      vfsMountAll (vfsInit fun _ => quietDriver)
        [([47, 112, 114, 111, 99, 47], 1), ([47], 2)] = some m ∧
      vfsOpen m vfsRoot [47, 112, 114, 111, 99, 47, 115, 101, 108, 102] 0 () = none) ∧
    ∃ m : Mounts Unit,
      vfsMountAll (vfsInit fun _ => quietDriver) [([47, 97, 47, 98], 1)] = some m ∧
      vfsOpen m vfsRoot [47] 0 () = none :=
  ⟨⟨_, rfl, rfl⟩, ⟨_, rfl, rfl⟩⟩

end Neos.Vfs
