import Neos.Vfs.Guarded

/-!
# Following ordinary names

A path without `.` and `..` leads down: over the nodes of the mount tree as long
as their names go on, and from there into the driver of the last one.
-/

namespace Neos.Vfs

variable {W : Type}

/-! ## Opening -/

/-- Enter names one after the other until one fails, with the search below
childless nodes finding nothing. -/
def enterAllGuarded (m : Mounts W) : List PathStep → VRef → W → Option (Outcome W)
  | [], vref, w => some ⟨0, vref, w⟩
  | step :: steps, vref, w => do
      let entered ← vfsEnterGuarded m vref step.1 step.2 w
      if entered.res ≠ 0 then some entered
      else enterAllGuarded m steps entered.vref entered.world

/-- `vfs_open`, with the search below childless nodes finding nothing. -/
def vfsOpenGuarded (m : Mounts W) (relation : VRef) (path : CString) (flags : ℕ) (w : W) :
    Option (Outcome W) :=
  (start m relation path w).bind fun updated =>
    (enterAllGuarded m (schedule flags 0 none (names path)).1 updated.vref updated.world).map
      (Outcome.finish (schedule flags 0 none (names path)).2)

theorem enterAllGuarded_of_enterAll {m : Mounts W} :
    ∀ {steps : List PathStep} {vref : VRef} {w : W} {o : Outcome W},
      enterAll m steps vref w = some o → enterAllGuarded m steps vref w = some o
  | [], _, _, _, h => h
  | step :: steps, vref, w, o, h => by
      rw [enterAll] at h
      obtain ⟨entered, henter, h⟩ := Option.bind_eq_some_iff.mp h
      rw [enterAllGuarded, vfsEnterGuarded_of_vfsEnter henter, Option.bind_eq_bind,
        Option.bind_some]
      split
      · next hres => rwa [if_pos hres] at h
      · next hres =>
          rw [if_neg hres] at h
          exact enterAllGuarded_of_enterAll h

/-- It is `vfs_open` wherever that does not go through the null pointer. -/
theorem vfsOpenGuarded_of_vfsOpen {m : Mounts W} {relation : VRef} {path : CString} {flags : ℕ}
    {w : W} {o : Outcome W} (h : vfsOpen m relation path flags w = some o) :
    vfsOpenGuarded m relation path flags w = some o := by
  rw [vfsOpen_eq] at h
  obtain ⟨updated, hstart, h⟩ := Option.bind_eq_some_iff.mp h
  obtain ⟨entered, henter, h⟩ := Option.map_eq_some_iff.mp h
  rw [vfsOpenGuarded, hstart, Option.bind_some, enterAllGuarded_of_enterAll henter,
    Option.map_some, h]

/-- A name that is neither `.` nor `..`. -/
def Ordinary (name : CString) : Prop := name ≠ [46] ∧ name ≠ [46, 46]

/-- The names of a plan, and the flags they are entered with. -/
theorem plan_names (flags : ℕ) : ∀ ns : List CString, (plan flags ns).map Prod.fst = ns
  | [] => rfl
  | [_] => rfl
  | name :: next :: rest => by
      rw [plan, List.map_cons, plan_names flags (next :: rest)]

theorem plan_flags (flags : ℕ) : ∀ (ns : List CString), ∀ step ∈ plan flags ns,
    step.2 = flags ∨ step.2 = directoryFlags flags
  | [], step, h => by cases h
  | [_], step, h => by
      rw [plan, List.mem_singleton] at h
      exact Or.inl (by rw [h])
  | name :: next :: rest, step, h => by
      rw [plan] at h
      rcases List.mem_cons.mp h with rfl | h
      · exact Or.inr rfl
      · exact plan_flags flags (next :: rest) step h

/-- Opening a path with acceptable names enters all of them. -/
theorem vfsOpenGuarded_of_acceptable {m : Mounts W} {relation : VRef} {path : CString}
    (h : Acceptable (names path)) (flags : ℕ) (w : W) :
    vfsOpenGuarded m relation path flags w =
      (start m relation path w).bind fun updated =>
        enterAllGuarded m (plan flags (names path)) updated.vref updated.world := by
  rw [vfsOpenGuarded, h.schedule_eq flags]
  congr 1
  funext updated
  cases enterAllGuarded m (plan flags (names path)) updated.vref updated.world with
  | none => rfl
  | some o =>
      by_cases hres : o.res = 0
      · rw [Option.map_some, Outcome.finish_of_eq hres, ← hres]
      · rw [Option.map_some, Outcome.finish_of_ne hres]

/-- A path that is opened has acceptable names. -/
theorem acceptable_of_vfsOpenGuarded {m : Mounts W} {relation : VRef} {path : CString} {flags : ℕ}
    {w : W} {o : Outcome W} (ho : vfsOpenGuarded m relation path flags w = some o)
    (hres : o.res = 0) : Acceptable (names path) := by
  by_contra hnot
  rw [vfsOpenGuarded] at ho
  obtain ⟨updated, _, ho⟩ := Option.bind_eq_some_iff.mp ho
  obtain ⟨entered, _, ho⟩ := Option.map_eq_some_iff.mp ho
  have hcode := schedule_code_pos hnot flags
  by_cases hzero : entered.res = 0
  · rw [Outcome.finish_of_eq hzero] at ho
    rw [← ho] at hres
    exact absurd hres (Int.ne_of_gt hcode)
  · rw [Outcome.finish_of_ne hzero] at ho
    rw [ho] at hzero
    exact hzero hres

/-! ## One step -/

section Step

variable {m : Mounts W} {paths : List (List CString)} {children : ℕ → List ℕ} {vref : VRef}

/-- At a mount node an ordinary name leads to the child with that name. -/
theorem vfsEnterGuarded_child (h : Trie m.nodes paths children) {part : CString}
    (hpart : Ordinary part) (flags : ℕ) (w : W) (hoffset : vref.offset = 0) {child : ℕ}
    (hbelow : nodeBelow m.nodes vref.node part = some child) :
    vfsEnterGuarded m vref part flags w = vfsUpdate m { vref with node := child } w := by
  have hchild : m.nodes[vref.node]?.bind VNode.child ≠ none := by
    intro hnone
    rw [h.nodeBelow_childless part hnone] at hbelow
    cases hbelow
  have hless : ¬ Childless m vref part := fun hless => hchild hless.2.2.2
  rw [vfsEnterGuarded, if_neg hless, vfsEnter_top h flags hpart.1 hpart.2 hoffset hchild, hbelow]

/-- Everywhere else it goes one level down in the driver. -/
theorem vfsEnterGuarded_deeper (h : Trie m.nodes paths children) {part : CString}
    (hpart : Ordinary part) (flags : ℕ) (w : W)
    (hbelow : vref.offset = 0 → nodeBelow m.nodes vref.node part = none) :
    vfsEnterGuarded m vref part flags w =
      updateAndOpen m { vref with offset := vref.offset + 1 } part flags w := by
  rw [vfsEnterGuarded]
  by_cases hless : Childless m vref part
  · rw [if_pos hless]
  rw [if_neg hless]
  by_cases hoffset : vref.offset = 0
  · have hchild : m.nodes[vref.node]?.bind VNode.child ≠ none :=
      fun hnone => hless ⟨hpart.1, hpart.2, hoffset, hnone⟩
    rw [vfsEnter_top h flags hpart.1 hpart.2 hoffset hchild, hbelow hoffset]
  · rw [vfsEnter_below flags hpart.1 hpart.2 hoffset]

end Step

/-! ## Descending -/

/-- Descend along names as long as there are nodes: the last node, and the names
that are left. -/
def descend (nodes : List VNode) : ℕ → List CString → ℕ × List CString
  | n, [] => (n, [])
  | n, name :: ns =>
      match nodeBelow nodes n name with
      | some child => descend nodes child ns
      | none => (n, name :: ns)

/-- The nodes at the beginnings of a path have drivers. -/
def Driven (nodes : List VNode) (paths : List (List CString)) (q : List CString) : Prop :=
  ∀ n p, paths[n]? = some p → p <+: q → driverOf nodes n ≠ none

theorem Driven.mono {nodes : List VNode} {paths : List (List CString)} {p q : List CString}
    (h : Driven nodes paths q) (hp : p <+: q) : Driven nodes paths p :=
  fun n r hn hr => h n r hn (hr.trans hp)

section Descend

variable {nodes : List VNode} {paths : List (List CString)} {children : ℕ → List ℕ}

theorem Driven.child {q : List CString} {name : CString} {child : ℕ}
    (h : Driven nodes paths q) (htrie : Trie nodes paths children)
    (hchild : paths[child]? = some (q ++ [name])) (hd : driverOf nodes child ≠ none) :
    Driven nodes paths (q ++ [name]) := by
  intro i p hi hp
  rcases List.prefix_concat_iff.mp hp with rfl | hp
  · rw [htrie.index_unique hi hchild]
    exact hd
  · exact h i p hi hp

/-- Descending ends at a beginning of the path. -/
theorem Trie.descend_spec (h : Trie nodes paths children) :
    ∀ (ns : List CString) {n : ℕ} {q : List CString}, paths[n]? = some q →
      ∃ r, ns = r ++ (descend nodes n ns).2 ∧ paths[(descend nodes n ns).1]? = some (q ++ r)
  | [], n, q, hq => ⟨[], rfl, by rw [List.append_nil]; exact hq⟩
  | name :: ns, n, q, hq => by
      rw [descend]
      cases hbelow : nodeBelow nodes n name with
      | none => exact ⟨[], rfl, by rw [List.append_nil]; exact hq⟩
      | some child =>
          obtain ⟨q', hq', hchild⟩ := h.nodeBelow_eq_some_iff.mp hbelow
          rw [hq] at hq'
          cases hq'
          obtain ⟨r, hr, hpath⟩ := h.descend_spec ns hchild
          refine ⟨name :: r, ?_, ?_⟩
          · rw [List.cons_append]
            exact congrArg (name :: ·) hr
          · rw [List.append_cons]
            exact hpath

/-- It ends where no node goes on. -/
theorem descend_stops :
    ∀ (ns : List CString) {n : ℕ} {name : CString} {rest : List CString},
      (descend nodes n ns).2 = name :: rest → nodeBelow nodes (descend nodes n ns).1 name = none
  | [], _, _, _, h => by cases h
  | next :: ns, n, name, rest, h => by
      rw [descend] at h ⊢
      cases hbelow : nodeBelow nodes n next with
      | none =>
          rw [hbelow] at h
          cases h
          exact hbelow
      | some child =>
          rw [hbelow] at h
          exact descend_stops ns h

/-- A node below the root has the last name of its path, and its parent lies at
the rest. -/
theorem Trie.above (h : Trie nodes paths children) {n : ℕ} {q : List CString} {name : CString}
    (hn : paths[n]? = some (q ++ [name])) :
    n ≠ 0 ∧ ∃ node, nodes[n]? = some node ∧ node.name = name ∧ paths[node.parent]? = some q := by
  have hroot : n ≠ 0 := by
    rintro rfl
    rw [h.root] at hn
    simp at hn
  obtain ⟨node, hnode⟩ := h.node_of_path hn
  obtain ⟨p, hparent, hn'⟩ := h.path_of_child hroot hnode
  rw [hn] at hn'
  obtain ⟨rfl, rfl⟩ := List.append_singleton_inj.mp (Option.some.inj hn')
  exact ⟨hroot, node, hnode, rfl, hparent⟩

/-- A node at the beginning of a path lies above the node at the path. -/
theorem Trie.exists_of_append (h : Trie nodes paths children) {q : List CString} :
    ∀ (r : List CString) {last : ℕ}, paths[last]? = some (q ++ r) →
      ∃ n : ℕ, paths[n]? = some q := by
  intro r
  induction r using List.reverseRecOn with
  | nil => exact fun hlast => ⟨_, by rw [List.append_nil] at hlast; exact hlast⟩
  | append_singleton r name ih =>
      intro last hlast
      rw [← List.append_assoc] at hlast
      obtain ⟨_, node, _, _, hparent⟩ := h.above hlast
      exact ih hparent

/-- Along the path of a node descending reaches it. -/
theorem Trie.descend_append (h : Trie nodes paths children) {last : ℕ} :
    ∀ (r : List CString) {n : ℕ} {q : List CString} (rest : List CString), paths[n]? = some q →
      paths[last]? = some (q ++ r) → descend nodes n (r ++ rest) = descend nodes last rest
  | [], n, q, rest, hq, hlast => by
      rw [List.append_nil] at hlast
      rw [List.nil_append, h.index_unique hq hlast]
  | name :: r, n, q, rest, hq, hlast => by
      -- the node on the way exists, since paths are closed under beginnings
      rw [List.append_cons] at hlast
      obtain ⟨mid, hmid⟩ := h.exists_of_append r hlast
      have hbelow : nodeBelow nodes n name = some mid :=
        h.nodeBelow_eq_some_iff.mpr ⟨q, hq, hmid⟩
      rw [List.cons_append, descend, hbelow]
      exact h.descend_append r rest hmid hlast

end Descend

end Neos.Vfs
