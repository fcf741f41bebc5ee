import Neos.Vfs.Mounting

/-!
# The mount tree

Any sequence of mounts leaves the trie of the mounted paths.  A single mount is
described by what it does to the paths and to the drivers, and a sequence by
induction on its end.
-/

namespace Neos.Vfs

variable {W : Type}

/-! ## The names `vfs_mount` goes along -/

/-- The names `vfs_resolve` returns one after the other. -/
def resolvedNames : ℕ → VPath → List CString
  | 0, _ => []
  | fuel + 1, path =>
      let front := vfsResolve path
      if front.more = false then [] else front.name :: resolvedNames fuel front.path

/-- The names of a mounted path.  A name that does not fit the buffer is taken
in pieces. -/
def mountedNames (path : CString) : List CString := resolvedNames (path.length + 1) ⟨path, 0, 0, 0⟩

/-- Descending along names, making the nodes that are missing. -/
def mountNames (m : Mounts W) (n : ℕ) (ns : List CString) : Option (Mounts W × ℕ) :=
  ns.foldlM (fun at_ name => mountName at_.1 at_.2 name) (m, n)

/-- The loop of `vfs_resolve` goes forward, but not past the end. -/
theorem resolveLoop_bounds (s : CString) :
    ∀ (room i : ℕ) (buffer : CString), i ≤ s.length →
      i ≤ (resolveLoop s room i buffer).1 ∧ (resolveLoop s room i buffer).1 ≤ s.length
  | 0, _, _, h => ⟨le_refl _, h⟩
  | room + 1, i, buffer, h => by
      rw [resolveLoop]
      split
      · exact ⟨le_refl _, h⟩
      · next hgo =>
          have hlt := lt_length_of_charAt (not_or.mp hgo).2
          obtain ⟨h₁, h₂⟩ := resolveLoop_bounds s room (i + 1) (buffer ++ [charAt s i]) hlt
          exact ⟨Nat.le_of_succ_le h₁, h₂⟩

/-- Every name uses up a character. -/
theorem vfsResolve_advances {path : VPath} (h : (vfsResolve path).more = true) :
    (vfsResolve path).path.string = path.string ∧
      path.offset < (vfsResolve path).path.offset ∧
      (vfsResolve path).path.offset ≤ path.string.length := by
  by_cases hslash : charAt path.string path.offset = slash
  · by_cases hend : charAt path.string (path.offset + 1) = 0
    · simp [vfsResolve, hslash, hend] at h
    obtain ⟨h₁, h₂⟩ := resolveLoop_bounds path.string (fileMaxName - 1) (path.offset + 1) []
      (lt_length_of_charAt hend).le
    simp only [vfsResolve, hslash, hend, if_true, if_false]
    exact ⟨trivial, h₁, h₂⟩
  · by_cases hend : charAt path.string path.offset = 0
    · rw [vfsResolve_done (by rwa [VPath.rest, stripSlash_tail, if_neg hslash,
        tail_eq_nil_iff])] at h
      cases h
    have hstep : resolveLoop path.string (fileMaxName - 1) path.offset [] =
        resolveLoop path.string (fileMaxName - 2) (path.offset + 1)
          [charAt path.string path.offset] := by
      rw [show fileMaxName - 1 = (fileMaxName - 2) + 1 from rfl, resolveLoop,
        if_neg (not_or.mpr ⟨hslash, hend⟩)]
      rfl
    obtain ⟨h₁, h₂⟩ := resolveLoop_bounds path.string (fileMaxName - 2) (path.offset + 1)
      [charAt path.string path.offset] (lt_length_of_charAt hend)
    simp only [vfsResolve, hslash, hend, if_false, hstep]
    exact ⟨trivial, h₁, h₂⟩

/-- The loop of `vfs_mount` descends along the names, and ends before its bound
is used up. -/
theorem mountLoop_eq :
    ∀ (fuel : ℕ) (m : Mounts W) (path : VPath) (n : ℕ), path.offset ≤ path.string.length →
      path.string.length < path.offset + fuel →
      mountLoop fuel m path n = mountNames m n (resolvedNames fuel path)
  | 0, _, _, _, hle, h => absurd (Nat.lt_of_lt_of_le h hle) (Nat.lt_irrefl _)
  | fuel + 1, m, path, n, hle, h => by
      rw [mountLoop, resolvedNames]
      by_cases hmore : (vfsResolve path).more = true
      · obtain ⟨hstring, hlt, hle'⟩ := vfsResolve_advances hmore
        rw [if_neg (by rw [hmore]; decide), if_neg (by rw [hmore]; decide), mountNames,
          List.foldlM_cons]
        cases mountName m n (vfsResolve path).name with
        | none => rfl
        | some mounted =>
            refine mountLoop_eq fuel mounted.1 _ mounted.2 ?_ ?_
            · rw [hstring]
              exact hle'
            · rw [hstring]
              omega
      · rw [Bool.not_eq_true] at hmore
        rw [if_pos hmore, if_pos hmore]
        rfl

/-- A name that just fits is returned whole. -/
theorem resolveLoop_copies (s : CString) :
    ∀ (room i : ℕ) (buffer : CString), (nextName (tail s i)).length ≤ room →
      (resolveLoop s room i buffer).1 = i + (nextName (tail s i)).length ∧
        (resolveLoop s room i buffer).2.1 = buffer ++ nextName (tail s i)
  | 0, i, buffer, h => by
      rw [List.eq_nil_of_length_eq_zero (Nat.le_zero.mp h), List.append_nil]
      exact ⟨rfl, rfl⟩
  | room + 1, i, buffer, h => by
      rw [resolveLoop]
      split
      · next hend =>
          rw [nextName_tail_end hend, List.append_nil]
          exact ⟨rfl, rfl⟩
      · next hgo =>
          obtain ⟨h₁, h₂⟩ := not_or.mp hgo
          rw [nextName_tail_cons h₁ h₂] at h ⊢
          obtain ⟨hoffset, hname⟩ := resolveLoop_copies s room (i + 1) (buffer ++ [charAt s i])
            (Nat.le_of_succ_le_succ h)
          rw [hoffset, hname, List.length_cons, List.append_assoc]
          exact ⟨by omega, rfl⟩

/-- A name shorter than the buffer is resolved, and the path goes on behind
it. -/
theorem vfsResolve_copies {path : VPath} (h : stripSlash path.rest ≠ [])
    (hlen : (nextName (stripSlash path.rest)).length < fileMaxName) :
    (vfsResolve path).name = nextName (stripSlash path.rest) ∧
      (vfsResolve path).path.rest = afterName (stripSlash path.rest) := by
  rw [VPath.rest, stripSlash_tail] at h hlen ⊢
  have hgo := h
  rw [ne_eq, tail_eq_nil_iff] at hgo
  obtain ⟨hoffset, hname⟩ := resolveLoop_copies path.string (fileMaxName - 1) _ []
    (Nat.le_sub_one_of_lt hlen)
  unfold vfsResolve
  dsimp only
  rw [if_neg hgo]
  refine ⟨hname, ?_⟩
  rw [VPath.rest]
  dsimp only
  rw [hoffset]
  exact afterName_tail _ _ _ rfl

/-- A path whose names fit the buffer is mounted along its names. -/
theorem resolvedNames_eq :
    ∀ (fuel : ℕ) (path : VPath), path.offset ≤ path.string.length →
      path.string.length < path.offset + fuel →
      (∀ name ∈ sections path.rest, name.length < fileMaxName) →
      resolvedNames fuel path = sections path.rest
  | 0, _, hle, h, _ => absurd (Nat.lt_of_lt_of_le h hle) (Nat.lt_irrefl _)
  | fuel + 1, path, hle, h, hnames => by
      rw [resolvedNames]
      by_cases hdone : stripSlash path.rest = []
      · rw [sections_nil hdone, if_pos (vfsResolve_done hdone)]
      obtain ⟨hmore, _⟩ := vfsResolve_more hdone
      obtain ⟨hstring, hlt, hle'⟩ := vfsResolve_advances hmore
      rw [sections_cons hdone] at hnames ⊢
      obtain ⟨hname, hrest⟩ := vfsResolve_copies hdone (hnames _ List.mem_cons_self)
      rw [if_neg (by rw [hmore]; decide), hname, ← hrest,
        resolvedNames_eq fuel (vfsResolve path).path]
      · rw [hstring]
        exact hle'
      · rw [hstring]
        omega
      · intro name hname
        rw [hrest] at hname
        exact hnames name (List.mem_cons_of_mem _ hname)

theorem mountedNames_eq {path : CString} (h : ∀ name ∈ names path, name.length < fileMaxName) :
    mountedNames path = names path :=
  resolvedNames_eq (path.length + 1) ⟨path, 0, 0, 0⟩ (Nat.zero_le _) (by simp) h

/-! ## One mount -/

section Mount

variable {m : Mounts W} {paths : List (List CString)} {children : ℕ → List ℕ}

/-- Descending along names leads to the node that lies at them, and makes the
nodes on the way that were not there. -/
theorem mountNames_spec :
    ∀ (ns : List CString) {m : Mounts W} {paths : List (List CString)} {children : ℕ → List ℕ}
      {n : ℕ} {path : List CString}, Trie m.nodes paths children → paths[n]? = some path →
      ∃ m' c new children', mountNames m n ns = some (m', c) ∧ m'.drivers = m.drivers ∧
        Trie m'.nodes (paths ++ new) children' ∧ (paths ++ new)[c]? = some (path ++ ns) ∧
        (∀ q, q ∈ paths ++ new ↔ q ∈ paths ∨ ∃ front, front <+: ns ∧ q = path ++ front) ∧
        ∀ i, driverOf m'.nodes i = driverOf m.nodes i
  | [], m, paths, children, n, path, h, hn => by
      refine ⟨m, n, [], children, rfl, rfl, ?_, ?_, ?_, fun _ => rfl⟩
      · rwa [List.append_nil]
      · rwa [List.append_nil, List.append_nil]
      · intro q
        rw [List.append_nil]
        constructor
        · exact Or.inl
        · rintro (hq | ⟨front, hfront, rfl⟩)
          · exact hq
          · rw [List.prefix_nil.mp hfront, List.append_nil]
            exact List.mem_of_getElem? hn
  | name :: ns, m, paths, children, n, path, h, hn => by
      obtain ⟨m₁, c₁, new₁, children₁, hstep, hdrivers₁, h₁, hc₁, hnew₁, hdriver₁⟩ :=
        mountName_spec h hn name
      obtain ⟨m₂, c₂, new₂, children₂, hrest, hdrivers₂, h₂, hc₂, hnew₂, hdriver₂⟩ :=
        mountNames_spec ns h₁ hc₁
      rw [List.append_assoc] at h₂ hc₂ hnew₂
      refine ⟨m₂, c₂, new₁ ++ new₂, children₂, ?_, hdrivers₂.trans hdrivers₁, h₂, ?_, ?_, ?_⟩
      · rw [mountNames, List.foldlM_cons, hstep]
        exact hrest
      · rw [hc₂, List.append_assoc, List.singleton_append]
      · intro q
        rw [hnew₂ q, List.mem_append]
        constructor
        · rintro ((hq | hq) | ⟨front, hfront, rfl⟩)
          · exact Or.inl hq
          · refine Or.inr ⟨[name], ?_, hnew₁ q hq⟩
            exact List.cons_prefix_cons.mpr ⟨rfl, List.nil_prefix⟩
          · refine Or.inr ⟨name :: front, List.cons_prefix_cons.mpr ⟨rfl, hfront⟩, ?_⟩
            rw [List.append_assoc, List.singleton_append]
        · rintro (hq | ⟨front, hfront, rfl⟩)
          · exact Or.inl (Or.inl hq)
          · cases front with
            | nil =>
                rw [List.append_nil]
                exact Or.inl (Or.inl (List.mem_of_getElem? hn))
            | cons name' front =>
                obtain ⟨rfl, hrest⟩ := List.cons_prefix_cons.mp hfront
                refine Or.inr ⟨front, hrest, ?_⟩
                rw [List.append_assoc, List.singleton_append]
      · intro i
        rw [hdriver₂, hdriver₁]

/-- Drivers are no part of the trie. -/
theorem Trie.congr {nodes nodes' : List VNode} (h : Trie nodes paths children)
    (hlength : nodes'.length = nodes.length)
    (hsame : ∀ (i : ℕ) (node : VNode), nodes[i]? = some node → ∃ node' : VNode,
      nodes'[i]? = some node' ∧ node'.sibling = node.sibling ∧ node'.child = node.child ∧
      node'.parent = node.parent ∧ node'.name = node.name) : Trie nodes' paths children := by
  have hback : ∀ {i : ℕ} {node' : VNode}, nodes'[i]? = some node' → ∃ node,
      nodes[i]? = some node ∧ node'.child = node.child ∧ node'.parent = node.parent := by
    intro i node' hi
    have hlt := (List.getElem?_eq_some_iff.mp hi).1
    rw [hlength] at hlt
    obtain ⟨node'', hi', _, hchild, hparent, _⟩ := hsame i _ (List.getElem?_eq_getElem hlt)
    rw [hi] at hi'
    cases hi'
    exact ⟨_, List.getElem?_eq_getElem hlt, hchild, hparent⟩
  refine ⟨by rw [h.length_eq, hlength], h.root, ?_, h.nodup, ?_, ?_, ?_, h.children_nodup⟩
  · obtain ⟨node, hnode, hparent⟩ := h.root_parent
    obtain ⟨node', hnode', _, _, hparent', _⟩ := hsame 0 node hnode
    exact ⟨node', hnode', by rw [hparent', hparent]⟩
  · intro n node' hn
    obtain ⟨node, hnode, hchild, _⟩ := hback hn
    rw [hchild]
    refine (h.chain n node hnode).congr ?_
    intro c hc
    obtain ⟨_, child, _, hcnode, _⟩ := h.child n c hc
    obtain ⟨child', hcnode', hsibling, _⟩ := hsame c child hcnode
    simp [siblingOf, hcnode, hcnode', hsibling]
  · intro n c hc
    obtain ⟨path, node, hpath, hnode, hcpath, hparent⟩ := h.child n c hc
    obtain ⟨node', hnode', _, _, hparent', hname⟩ := hsame c node hnode
    exact ⟨path, node', hpath, hnode', by rw [hname, hcpath], by rw [hparent', hparent]⟩
  · intro c node' hc hnode'
    obtain ⟨node, hnode, _, hparent⟩ := hback hnode'
    rw [hparent]
    exact h.complete c node hc hnode

/-- A call of `vfs_mount` makes the nodes along the path and sets the driver of
the last one, and of no other. -/
theorem vfsMount_spec (h : Trie m.nodes paths children) {path : CString}
    (hpath : charAt path 0 = slash) (driver : ℕ) :
    ∃ m' target new children', vfsMount m path driver = some m' ∧ m'.drivers = m.drivers ∧
      Trie m'.nodes (paths ++ new) children' ∧
      (paths ++ new)[target]? = some (mountedNames path) ∧
      (∀ q, q ∈ paths ++ new ↔ q ∈ paths ∨ q <+: mountedNames path) ∧
      ∀ i, driverOf m'.nodes i = if i = target then some driver else driverOf m.nodes i := by
  obtain ⟨m', target, new, children', hmount, hdrivers, htrie, htarget, hpaths, hdriver⟩ :=
    mountNames_spec (mountedNames path) h h.root
  rw [List.nil_append] at htarget
  obtain ⟨node, hnode⟩ := htrie.node_of_path htarget
  have hlt := (List.getElem?_eq_some_iff.mp hnode).1
  refine ⟨⟨m'.nodes.set target { node with driver := some driver }, m'.drivers⟩, target, new,
    children', ?_, hdrivers, ?_, htarget, ?_, ?_⟩
  · have hloop := mountLoop_eq (path.length + 1) m ⟨path, 0, 0, 0⟩ 0 (Nat.zero_le _) (by simp)
    rw [mountedNames] at hmount
    simp [vfsMount, hpath, hloop, hmount, hnode]
  · apply htrie.congr
    · rw [List.length_set]
    · intro i old hold
      by_cases hi : i = target
      · subst hi
        rw [hnode] at hold
        cases hold
        exact ⟨_, List.getElem?_set_self hlt, rfl, rfl, rfl, rfl⟩
      · exact ⟨old, by rw [List.getElem?_set_ne (Ne.symm hi), hold], rfl, rfl, rfl, rfl⟩
  · intro q
    rw [hpaths q]
    simp
  · intro i
    by_cases hi : i = target
    · subst hi
      simp [driverOf, hlt]
    · rw [if_neg hi, ← hdriver i, driverOf, List.getElem?_set_ne (Ne.symm hi)]
      rfl

end Mount

/-! ## A sequence of mounts -/

/-- The driver a sequence of mounts leaves at a path: the one mounted there
last. -/
def lastDriver (mounts : List (List CString × ℕ)) (path : List CString) : Option ℕ :=
  (mounts.reverse.find? fun mount => mount.1 = path).map Prod.snd

theorem lastDriver_append (mounts : List (List CString × ℕ)) (mount : List CString × ℕ)
    (path : List CString) :
    lastDriver (mounts ++ [mount]) path =
      if mount.1 = path then some mount.2 else lastDriver mounts path := by
  rw [lastDriver, List.reverse_append, List.reverse_singleton, List.singleton_append,
    List.find?_cons]
  by_cases h : mount.1 = path
  · simp [h]
  · simp [h, lastDriver]

/-- The names and drivers of a sequence of mounts. -/
def mounted (mounts : List (CString × ℕ)) : List (List CString × ℕ) :=
  mounts.map fun mount => (mountedNames mount.1, mount.2)

/-- The trie holds the mounted paths with all their beginnings, and the drivers
that were mounted last. -/
structure Holds (nodes : List VNode) (paths : List (List CString)) (children : ℕ → List ℕ)
    (mounts : List (List CString × ℕ)) : Prop where
  trie : Trie nodes paths children
  mem : ∀ q, q ∈ paths ↔ q = [] ∨ ∃ mount ∈ mounts, q <+: mount.1
  driver : ∀ n q, paths[n]? = some q → driverOf nodes n = lastDriver mounts q

theorem holds_init (drivers : ℕ → FilesystemDriver W) :
    Holds (vfsInit drivers).nodes [[]] (fun _ => []) [] where
  trie := by
    have hone : ∀ {n : ℕ} {node : VNode}, (vfsInit drivers).nodes[n]? = some node →
        n = 0 ∧ node = ⟨none, none, 0, none, [114, 111, 111, 116]⟩ := by
      intro n node hn
      rw [vfsInit, List.getElem?_singleton] at hn
      split at hn
      · next hzero => exact ⟨hzero, (Option.some.inj hn).symm⟩
      · cases hn
    refine ⟨rfl, rfl, ⟨_, rfl, rfl⟩, List.nodup_singleton _, ?_, ?_, ?_, fun _ => List.nodup_nil⟩
    · intro n node hn
      rw [(hone hn).2]
      exact .nil
    · intro n c hc
      cases hc
    · intro c node hc hnode
      exact absurd (hone hnode).1 hc
  mem q := by simp
  driver n q hn := by
    rw [List.getElem?_singleton] at hn
    split at hn
    · next hzero =>
        rw [hzero]
        rfl
    · cases hn

/-- A mount keeps it. -/
theorem Holds.mount {m : Mounts W} {paths : List (List CString)} {children : ℕ → List ℕ}
    {mounts : List (List CString × ℕ)} (h : Holds m.nodes paths children mounts)
    {path : CString} (hpath : charAt path 0 = slash) (driver : ℕ) :
    ∃ m' paths' children', vfsMount m path driver = some m' ∧ m'.drivers = m.drivers ∧
      Holds m'.nodes paths' children' (mounts ++ [(mountedNames path, driver)]) := by
  obtain ⟨m', target, new, children', hmount, hdrivers, htrie, htarget, hpaths, hdriver⟩ :=
    vfsMount_spec h.trie hpath driver
  refine ⟨m', _, children', hmount, hdrivers, htrie, ?_, ?_⟩
  · intro q
    rw [hpaths q, h.mem q]
    simp [or_assoc, or_and_right, exists_or]
  · intro n q hn
    rw [hdriver n, lastDriver_append]
    by_cases hnt : n = target
    · subst hnt
      rw [htarget] at hn
      cases hn
      rw [if_pos rfl, if_pos rfl]
    have hq : mountedNames path ≠ q := by
      rintro rfl
      exact hnt (htrie.index_unique hn htarget)
    rw [if_neg hnt, if_neg hq]
    by_cases hold : n < paths.length
    · rw [List.getElem?_append_left hold] at hn
      exact h.driver n q hn
    · -- a node made on the way
      have hnode : m.nodes[n]? = none := by
        rw [h.trie.length_eq] at hold
        exact List.getElem?_eq_none (Nat.le_of_not_lt hold)
      have hqnew : q ∉ paths := by
        intro hmem
        obtain ⟨i, hi⟩ := List.mem_iff_getElem?.mp hmem
        have hlt := (List.getElem?_eq_some_iff.mp hi).1
        have hi' : (paths ++ new)[i]? = some q := by rw [List.getElem?_append_left hlt, hi]
        rw [htrie.index_unique hn hi'] at hold
        exact hold hlt
      rw [driverOf, hnode, lastDriver]
      rw [h.mem q, not_or] at hqnew
      have hnone : mounts.reverse.find? (fun mount => mount.1 = q) = none := by
        rw [List.find?_eq_none]
        intro mount hmem
        simp only [decide_eq_true_eq]
        rintro rfl
        exact hqnew.2 ⟨mount, List.mem_reverse.mp hmem, List.prefix_refl _⟩
      rw [hnone]
      rfl

/-- A sequence of mounts that goes through is one of absolute paths. -/
theorem absolute_of_vfsMountAll {mounts : List (CString × ℕ)} :
    ∀ {m m' : Mounts W}, vfsMountAll m mounts = some m' →
      ∀ mount ∈ mounts, charAt mount.1 0 = slash := by
  induction mounts with
  | nil =>
      intro m m' _ mount hmem
      cases hmem
  | cons first rest ih =>
      intro m m' h mount hmem
      rw [vfsMountAll, List.foldlM_cons] at h
      obtain ⟨m₁, hfirst, hrest⟩ := Option.bind_eq_some_iff.mp h
      rcases List.mem_cons.mp hmem with rfl | hmem
      · by_contra hrelative
        rw [vfsMount, if_pos hrelative] at hfirst
        cases hfirst
      · exact ih hrest mount hmem

/-- Every sequence of mounts of absolute paths leaves the trie of their
names. -/
theorem vfsMountAll_holds (drivers : ℕ → FilesystemDriver W) {mounts : List (CString × ℕ)}
    (h : ∀ mount ∈ mounts, charAt mount.1 0 = slash) :
    ∃ m paths children, vfsMountAll (vfsInit drivers) mounts = some m ∧ m.drivers = drivers ∧
      Holds m.nodes paths children (mounted mounts) := by
  induction mounts using List.reverseRecOn with
  | nil => exact ⟨_, _, _, rfl, rfl, holds_init drivers⟩
  | append_singleton mounts mount ih =>
      obtain ⟨m, paths, children, hall, hdrivers, hholds⟩ :=
        ih fun x hx => h x (List.mem_append_left _ hx)
      obtain ⟨m', paths', children', hmount, hdrivers', hholds'⟩ :=
        hholds.mount (h mount (by simp)) mount.2
      refine ⟨m', paths', children', ?_, hdrivers'.trans hdrivers, ?_⟩
      · rw [vfsMountAll, List.foldlM_append]
        rw [vfsMountAll] at hall
        simp [hall, hmount]
      · rw [mounted, List.map_append]
        exact hholds'

/-! ## The names of the nodes -/

/-- Changing the links of a node keeps its name. -/
theorem map_name_set {nodes : List VNode} {n : ℕ} {node node' : VNode}
    (hnode : nodes[n]? = some node) (hname : node'.name = node.name) :
    (nodes.set n node').map VNode.name = nodes.map VNode.name := by
  obtain ⟨hlt, rfl⟩ := List.getElem?_eq_some_iff.mp hnode
  have hlt' : n < (nodes.map VNode.name).length := by rwa [List.length_map]
  have hget : (nodes.map VNode.name)[n] = nodes[n].name := List.getElem_map _
  rw [List.map_set, hname, ← hget, List.set_getElem_self]

theorem mountName_names {m m' : Mounts W} {n child : ℕ} {name : CString}
    (h : mountName m n name = some (m', child)) :
    m.nodes.map VNode.name <+: m'.nodes.map VNode.name := by
  have hgrow : ∀ {k : ℕ} {node node' new : VNode}, m.nodes[k]? = some node →
      node'.name = node.name → m.nodes.map VNode.name <+:
        ((m.nodes ++ [new]).set k node').map VNode.name := by
    intro k node node' new hk hname
    have hlt := (List.getElem?_eq_some_iff.mp hk).1
    rw [map_name_set (by rw [List.getElem?_append_left hlt]; exact hk) hname, List.map_append]
    exact List.prefix_append _ _
  rw [mountName] at h
  obtain ⟨here, hhere, h⟩ := Option.bind_eq_some_iff.mp h
  cases hchild : here.child with
  | none =>
      rw [hchild] at h
      cases h
      exact hgrow hhere rfl
  | some first =>
      rw [hchild] at h
      obtain ⟨found, _, h⟩ := Option.bind_eq_some_iff.mp h
      by_cases hfound : found.1 = true
      · rw [if_pos hfound] at h
        cases h
        exact List.prefix_refl _
      · rw [if_neg hfound] at h
        obtain ⟨last, hlast, h⟩ := Option.bind_eq_some_iff.mp h
        cases h
        exact hgrow hlast rfl

theorem mountNames_names :
    ∀ (ns : List CString) {m m' : Mounts W} {n target : ℕ},
      mountNames m n ns = some (m', target) → m.nodes.map VNode.name <+: m'.nodes.map VNode.name
  | [], _, _, _, _, h => by
      cases h
      exact List.prefix_refl _
  | name :: ns, m, m', n, target, h => by
      rw [mountNames, List.foldlM_cons] at h
      obtain ⟨⟨m₁, child⟩, hname, hrest⟩ := Option.bind_eq_some_iff.mp h
      exact (mountName_names hname).trans (mountNames_names ns hrest)

/-- Mounting renames no node. -/
theorem vfsMountAll_names {mounts : List (CString × ℕ)} :
    ∀ {m m' : Mounts W}, vfsMountAll m mounts = some m' →
      m.nodes.map VNode.name <+: m'.nodes.map VNode.name := by
  induction mounts with
  | nil =>
      intro m m' h
      cases h
      exact List.prefix_refl _
  | cons first rest ih =>
      intro m m' h
      rw [vfsMountAll, List.foldlM_cons] at h
      obtain ⟨m₁, hfirst, hrest⟩ := Option.bind_eq_some_iff.mp h
      refine List.IsPrefix.trans ?_ (ih hrest)
      rw [vfsMount] at hfirst
      split at hfirst
      · cases hfirst
      · rw [mountLoop_eq (first.1.length + 1) m ⟨first.1, 0, 0, 0⟩ 0 (Nat.zero_le _) (by simp)]
          at hfirst
        obtain ⟨⟨m₂, target⟩, hnames, hfirst⟩ := Option.bind_eq_some_iff.mp hfirst
        obtain ⟨node, hnode, hfirst⟩ := Option.bind_eq_some_iff.mp hfirst
        cases hfirst
        have hset : (m₂.nodes.set target { node with driver := some first.2 }).map VNode.name =
            m₂.nodes.map VNode.name := map_name_set hnode rfl
        have hprefix := mountNames_names _ hnames
        rw [← hset] at hprefix
        exact hprefix

/-! ## The mounted paths and their trie -/

/-- An absolute path whose names fit the buffer. -/
def Mountable (path : CString) : Prop :=
  charAt path 0 = slash ∧ ∀ name ∈ names path, name.length < fileMaxName

/-- The mount tree is the trie of the mounted paths, as its links show it. -/
structure IsMountTrie (m : Mounts W) (mounts : List (List CString × ℕ)) : Prop where
  /-- siblings have different names -/
  siblings : ∀ n < m.nodes.length, ∃ cs, Children m.nodes n cs ∧
    (cs.map fun c => m.nodes[c]?.map VNode.name).Nodup
  /-- the root is its own parent -/
  root : m.nodes[0]?.map VNode.parent = some 0
  /-- the parent link of a child points back -/
  parent_of_child : ∀ n cs, Children m.nodes n cs → ∀ c ∈ cs,
    m.nodes[c]?.map VNode.parent = some n
  /-- every other node is a child of its parent -/
  child_of_parent : ∀ c node, c ≠ 0 → m.nodes[c]? = some node →
    ∃ cs, Children m.nodes node.parent cs ∧ c ∈ cs
  /-- every node lies at a path -/
  reached : ∀ n < m.nodes.length, ∃ path, walk m 0 path = some n
  /-- the paths that lead to a node begin mounted ones -/
  resolves : ∀ path, (walk m 0 path).isSome ↔ path = [] ∨ ∃ mount ∈ mounts, path <+: mount.1
  /-- the driver of a node was mounted there last -/
  driver : ∀ path n, walk m 0 path = some n → driverOf m.nodes n = lastDriver mounts path

theorem Holds.isMountTrie {m : Mounts W} {paths : List (List CString)} {children : ℕ → List ℕ}
    {mounts : List (List CString × ℕ)} (h : Holds m.nodes paths children mounts) :
    IsMountTrie m mounts where
  siblings n hn := by
    refine ⟨children n, h.trie.children_iff.mpr ⟨hn, rfl⟩, ?_⟩
    refine (h.trie.children_nodup n).map_on ?_
    intro c hc d hd heq
    obtain ⟨path, node, hpath, hnode, hcpath, _⟩ := h.trie.child n c hc
    obtain ⟨path', node', hpath', hnode', hdpath, _⟩ := h.trie.child n d hd
    rw [hpath] at hpath'
    cases hpath'
    rw [hnode, hnode'] at heq
    have hname : node.name = node'.name := Option.some.inj heq
    rw [hname] at hcpath
    exact h.trie.index_unique hcpath hdpath
  root := by
    obtain ⟨node, hnode, hparent⟩ := h.trie.root_parent
    simp [hnode, hparent]
  parent_of_child n cs hcs c hc := by
    obtain ⟨_, rfl⟩ := h.trie.children_iff.mp hcs
    obtain ⟨_, node, _, hnode, _, hparent⟩ := h.trie.child n c hc
    simp [hnode, hparent]
  child_of_parent c node hc hnode := by
    obtain ⟨path, hpath, _⟩ := h.trie.path_of_child hc hnode
    obtain ⟨parent, hparent⟩ := h.trie.node_of_path hpath
    have hlt := (List.getElem?_eq_some_iff.mp hparent).1
    exact ⟨_, h.trie.children_iff.mpr ⟨hlt, rfl⟩, h.trie.complete c node hc hnode⟩
  reached n hn := by
    obtain ⟨path, hpath⟩ := h.trie.path_of_node (List.getElem?_eq_getElem hn)
    exact ⟨path, h.trie.walk_eq_some_iff.mpr hpath⟩
  resolves path := by
    rw [← h.mem path, Option.isSome_iff_exists, List.mem_iff_getElem?]
    exact exists_congr fun n => h.trie.walk_eq_some_iff
  driver path n hn := h.driver n path (h.trie.walk_eq_some_iff.mp hn)

/-- Whatever is mounted, in whatever order, the nodes form the trie of the
mounted paths, and mounting once more changes no driver but that of the node at
the path. -/
theorem mounts_form_trie (drivers : ℕ → FilesystemDriver W) (mounts : List (CString × ℕ))
    (h : ∀ mount ∈ mounts, Mountable mount.1) :
    ∃ m, vfsMountAll (vfsInit drivers) mounts = some m ∧
      IsMountTrie m (mounts.map fun mount => (names mount.1, mount.2)) ∧
      ∀ path driver, Mountable path →
        ∃ m' target, vfsMount m path driver = some m' ∧ walk m' 0 (names path) = some target ∧
          driverOf m'.nodes target = some driver ∧
          ∀ n, n ≠ target → driverOf m'.nodes n = driverOf m.nodes n := by
  obtain ⟨m, paths, children, hall, _, hholds⟩ :=
    vfsMountAll_holds drivers fun mount hmem => (h mount hmem).1
  have hmounted : mounted mounts = mounts.map fun mount => (names mount.1, mount.2) := by
    apply List.map_congr_left
    intro mount hmem
    rw [mountedNames_eq (h mount hmem).2]
  rw [hmounted] at hholds
  refine ⟨m, hall, hholds.isMountTrie, ?_⟩
  intro path driver hpath
  obtain ⟨m', target, _, _, hmount, _, htrie, htarget, _, hdriver⟩ :=
    vfsMount_spec hholds.trie hpath.1 driver
  rw [mountedNames_eq hpath.2] at htarget
  refine ⟨m', target, hmount, htrie.walk_eq_some_iff.mpr htarget, ?_, ?_⟩
  · rw [hdriver target, if_pos rfl]
  · intro n hn
    rw [hdriver n, if_neg hn]

/-- A driver that does nothing and reports success. -/
def quietDriver : FilesystemDriver Unit where
  root _ _ := (0, 0, ())
  clone _ _ _ := (0, 0, ())
  openPart _ _ _ _ := (0, 0, ())
  close _ _ := (0, 0, ())
  remove _ _ _ := (0, 0, ())
  stat _ _ := (0, 0, ())

/-- The theorem at `/a/b`, `/` and `/a`. -/
theorem mounts_form_trie_small :
    ∃ m : Mounts Unit,
      vfsMountAll (vfsInit fun _ => quietDriver)
        [([47, 97, 47, 98], 1), ([47], 2), ([47, 97], 3)] = some m ∧
      IsMountTrie m [([[97], [98]], 1), ([], 2), ([[97]], 3)] := by
  have hab : names [47, 97, 47, 98] = [[97], [98]] := by
    rw [names, sections_cons (by decide), sections_cons (by decide), sections_nil (by decide)]
    rfl
  have hroot : names [47] = [] := by
    rw [names, sections_nil (by decide)]
  have ha : names [47, 97] = [[97]] := by
    rw [names, sections_cons (by decide), sections_nil (by decide)]
    rfl
  obtain ⟨m, hall, htrie, _⟩ := mounts_form_trie (fun _ => quietDriver)
    [([47, 97, 47, 98], 1), ([47], 2), ([47, 97], 3)] (by
      simp only [List.mem_cons, List.not_mem_nil, or_false, Mountable]
      rintro mount (rfl | rfl | rfl)
      · rw [hab]
        decide
      · rw [hroot]
        decide
      · rw [ha]
        decide)
  rw [List.map_cons, List.map_cons, List.map_cons, List.map_nil, hab, hroot, ha] at htrie
  exact ⟨m, hall, htrie⟩

end Neos.Vfs
