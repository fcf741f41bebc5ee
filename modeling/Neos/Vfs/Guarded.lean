import Neos.Vfs.NullFree

/-!
# Entering names below childless nodes

The search of `vfs_findchld` below a node without children goes through a null
pointer.  Here such a search finds nothing, so that names can be followed into
drivers mounted at the leaves of the tree; everywhere else it is `vfs_enter`.
-/

namespace Neos.Vfs

variable {W : Type}

/-- A name is looked for below a node without children. -/
def Childless (m : Mounts W) (vref : VRef) (part : CString) : Prop :=
  part ≠ [46] ∧ part ≠ [46, 46] ∧ vref.offset = 0 ∧ m.nodes[vref.node]?.bind VNode.child = none

instance (m : Mounts W) (vref : VRef) (part : CString) : Decidable (Childless m vref part) :=
  inferInstanceAs (Decidable (_ ∧ _ ∧ _ ∧ _))

/-- `vfs_enter`, with the search below a childless node finding nothing. -/
def vfsEnterGuarded (m : Mounts W) (vref : VRef) (part : CString) (flags : ℕ) (w : W) :
    Option (Outcome W) :=
  if Childless m vref part then
    updateAndOpen m { vref with offset := vref.offset + 1 } part flags w
  else vfsEnter m vref part flags w

/-- It is `vfs_enter` wherever that does not go through the null pointer. -/
theorem vfsEnterGuarded_of_vfsEnter {m : Mounts W} {vref : VRef} {part : CString} {flags : ℕ}
    {w : W} {o : Outcome W} (h : vfsEnter m vref part flags w = some o) :
    vfsEnterGuarded m vref part flags w = some o := by
  rw [vfsEnterGuarded, if_neg, h]
  rintro ⟨hdot, hdots, hoffset, hchild⟩
  rw [vfsEnter_childless flags hdot hdots hoffset hchild] at h
  cases h

section Cases

variable {m : Mounts W} {paths : List (List CString)} {children : ℕ → List ℕ} {vref : VRef}

/-- The step to another node of the tree: up from its root, or down to a
child. -/
def Crosses (nodes : List VNode) (vref : VRef) (part : CString) (n : ℕ) : Prop :=
  (part = [46, 46] ∧ vref.offset ≤ 0 ∧ nodes[vref.node]?.map VNode.parent = some n) ∨
    (part ≠ [46] ∧ part ≠ [46, 46] ∧ vref.offset = 0 ∧ nodeBelow nodes vref.node part = some n)

/-- The step within a mounted driver. -/
def Descends (nodes : List VNode) (vref : VRef) (part : CString) (offset : ℤ) : Prop :=
  (part = [46, 46] ∧ 0 < vref.offset ∧ offset = vref.offset - 1) ∨
    (part ≠ [46] ∧ part ≠ [46, 46] ∧ offset = vref.offset + 1 ∧
      (vref.offset = 0 → nodeBelow nodes vref.node part = none))

/-- No node lies below a node without children. -/
theorem Trie.nodeBelow_childless (h : Trie m.nodes paths children) {n : ℕ} (name : CString)
    (hchild : m.nodes[n]?.bind VNode.child = none) : nodeBelow m.nodes n name = none := by
  rw [← h.childNamed_eq, childNamed]
  cases hnode : m.nodes[n]? with
  | none => simp [vfsFindchld, hnode]
  | some node =>
      rw [hnode] at hchild
      rw [Trie.vfsFindchld_eq_none hnode hchild]

/-- What a step does: nothing, go to another node, or go one level up or down
within the driver. -/
theorem vfsEnterGuarded_cases (h : Trie m.nodes paths children) {part : CString} {flags : ℕ} {w : W}
    {o : Outcome W} (ho : vfsEnterGuarded m vref part flags w = some o) :
    (part = [46] ∧ o = ⟨0, vref, w⟩) ∨
    (∃ n, Crosses m.nodes vref part n ∧ vfsUpdate m { vref with node := n } w = some o) ∨
    ∃ offset, Descends m.nodes vref part offset ∧
      updateAndOpen m { vref with offset := offset } part flags w = some o := by
  rw [vfsEnterGuarded] at ho
  by_cases hless : Childless m vref part
  · rw [if_pos hless] at ho
    obtain ⟨hdot, hdots, hoffset, hchild⟩ := hless
    exact Or.inr (Or.inr ⟨_, Or.inr ⟨hdot, hdots, rfl, fun _ => h.nodeBelow_childless part hchild⟩,
      ho⟩)
  rw [if_neg hless] at ho
  by_cases hdot : part = [46]
  · subst hdot
    rw [vfsEnter_dot] at ho
    cases ho
    exact Or.inl ⟨rfl, rfl⟩
  right
  by_cases hdots : part = [46, 46]
  · subst hdots
    by_cases hoffset : vref.offset > 0
    · rw [vfsEnter_up flags hoffset] at ho
      exact Or.inr ⟨_, Or.inl ⟨rfl, hoffset, rfl⟩, ho⟩
    · cases hnode : m.nodes[vref.node]? with
      | none => simp [vfsEnter, hoffset, hnode] at ho
      | some node =>
          rw [vfsEnter_out hnode flags hoffset] at ho
          exact Or.inl ⟨_, Or.inl ⟨rfl, Int.not_lt.mp hoffset, by rw [hnode]; rfl⟩, ho⟩
  by_cases hoffset : vref.offset = 0
  · have hsome : m.nodes[vref.node]?.bind VNode.child ≠ none :=
      fun hnone => hless ⟨hdot, hdots, hoffset, hnone⟩
    rw [vfsEnter_top h flags hdot hdots hoffset hsome] at ho
    cases hbelow : nodeBelow m.nodes vref.node part with
    | some child =>
        rw [hbelow] at ho
        exact Or.inl ⟨child, Or.inr ⟨hdot, hdots, hoffset, hbelow⟩, ho⟩
    | none =>
        rw [hbelow] at ho
        exact Or.inr ⟨_, Or.inr ⟨hdot, hdots, rfl, fun _ => hbelow⟩, ho⟩
  · rw [vfsEnter_below flags hdot hdots hoffset] at ho
    exact Or.inr ⟨_, Or.inr ⟨hdot, hdots, rfl, fun hzero => absurd hzero hoffset⟩, ho⟩

end Cases

/-! ## Updating a reference -/

section Update

variable {m : Mounts W} {vref : VRef} {w : W}

/-- Nothing happens to a reference that has the driver of its node. -/
theorem vfsUpdate_same {driver : ℕ} (hv : vref.driver = some driver)
    (hn : driverOf m.nodes vref.node = some driver) : vfsUpdate m vref w = some ⟨0, vref, w⟩ := by
  obtain ⟨node, hnode, hdriver⟩ := Option.bind_eq_some_iff.mp hn
  simp [vfsUpdate, hnode, hv, hdriver]

/-- The world before a new driver is loaded: nothing happened yet, or the old
driver was closed. -/
def Reaches (m : Mounts W) (w w' : W) : Prop :=
  w' = w ∨ ∃ old v, w' = ((m.drivers old).close v w).2.2

/-- After an update that succeeded the reference is where it was, and has the
driver of its node: the one it had, or a new one whose root was loaded. -/
theorem vfsUpdate_success {o : Outcome W} (ho : vfsUpdate m vref w = some o) (hres : o.res = 0) :
    ∃ driver, driverOf m.nodes vref.node = some driver ∧ o.vref.driver = some driver ∧
      o.vref.node = vref.node ∧ o.vref.offset = vref.offset ∧
      ((vref.driver = some driver ∧ o.vref.state = vref.state ∧ o.world = w) ∨
        (vref.driver ≠ some driver ∧ ∃ v w', Reaches m w w' ∧
          (m.drivers driver).root v w' = (0, o.vref.state, o.world))) := by
  rw [vfsUpdate] at ho
  obtain ⟨node, hnode, ho⟩ := Option.bind_eq_some_iff.mp ho
  have henable : ∀ {v : VRef} {w' : W}, v.node = vref.node → v.offset = vref.offset →
      vref.driver ≠ node.driver ∨ node.driver = none → Reaches m w w' →
      enable m node v w' = some o →
      ∃ driver, driverOf m.nodes vref.node = some driver ∧ o.vref.driver = some driver ∧
        o.vref.node = vref.node ∧ o.vref.offset = vref.offset ∧
        ((vref.driver = some driver ∧ o.vref.state = vref.state ∧ o.world = w) ∨
          (vref.driver ≠ some driver ∧ ∃ v w', Reaches m w w' ∧
            (m.drivers driver).root v w' = (0, o.vref.state, o.world))) := by
    intro v w' hvnode hvoffset hother hreach heq
    rw [enable] at heq
    obtain ⟨driver, hdriver, heq⟩ := Option.bind_eq_some_iff.mp heq
    have hnot : vref.driver ≠ some driver := by
      rw [hdriver] at hother
      exact hother.resolve_right (Option.some_ne_none driver)
    cases heq
    refine ⟨driver, by simp [driverOf, hnode, hdriver], hdriver, hvnode, hvoffset, Or.inr
      ⟨hnot, { v with driver := node.driver }, w', hreach, ?_⟩⟩
    rw [← hres]
    rfl
  cases hv : vref.driver with
  | none =>
      rw [hv] at ho
      rw [← hv]
      refine henable rfl rfl ?_ (Or.inl rfl) ho
      cases hd : node.driver with
      | none => exact Or.inr rfl
      | some d =>
          rw [hv]
          exact Or.inl (Option.some_ne_none d).symm
  | some old =>
      rw [hv] at ho
      dsimp only at ho
      by_cases hsame : node.driver = some old
      · rw [if_pos hsame] at ho
        cases ho
        exact ⟨old, by simp [driverOf, hnode, hsame], hv, rfl, rfl, Or.inl ⟨rfl, rfl, rfl⟩⟩
      · rw [if_neg hsame] at ho
        split at ho
        · next hclose =>
            cases ho
            exact absurd hres hclose
        · rw [← hv]
          refine henable (v := (vref.store ((m.drivers old).close vref w)).vref) rfl rfl
            (Or.inl ?_) (Or.inr ⟨old, vref, rfl⟩) ho
          rw [hv]
          exact Ne.symm hsame

/-- A step within the driver of the node is the driver's own. -/
theorem updateAndOpen_same (vref : VRef) (part : CString) (flags : ℕ) (w : W) {driver : ℕ}
    (hv : vref.driver = some driver) (hn : driverOf m.nodes vref.node = some driver) :
    updateAndOpen m vref part flags w =
      some (vref.store ((m.drivers driver).openPart vref part flags w)) := by
  simp [updateAndOpen, vfsUpdate_same hv hn, openPart, hv]

end Update

end Neos.Vfs
