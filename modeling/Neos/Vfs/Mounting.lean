import Neos.Vfs.Open
import Neos.Library.PointerList
import Mathlib.Data.List.Infix
import Mathlib.Data.List.Perm.Subperm
import Mathlib.Logic.Function.Basic

/-!
# Mounting

`vfs_init` sets up the root node and `vfs_mount` descends along the names of a
path, creating the nodes that are missing.  Whatever was mounted, in whatever
order, the nodes form the trie of the mounted paths: a node is found along a
path exactly when the path begins a mounted one, and it holds the driver that
was mounted there last.

Allocation of a node is taken to succeed: the new node is the next number.
-/

namespace Neos.Vfs

variable {W : Type}

/-! ## `vfs_init` and `vfs_mount` -/

/-- `vfs_init`. -/
def vfsInit (drivers : ℕ → FilesystemDriver W) : Mounts W where
  nodes := [⟨none, none, 0, none, [114, 111, 111, 116]⟩]
  drivers := drivers

/-- The node made by `vfs_mknode`. -/
def vfsMknode (parent : ℕ) (name : CString) : VNode := ⟨none, none, parent, none, name⟩

/-- The body of the loop of `vfs_mount`: go to the child with the given name,
and make it when there is none. -/
def mountName (m : Mounts W) (node : ℕ) (name : CString) : Option (Mounts W × ℕ) := do
  let here ← m.nodes[node]?
  let vn := m.nodes.length
  match here.child with
  | none =>
      let nodes := m.nodes ++ [vfsMknode node name]
      some ({ m with nodes := nodes.set node { here with child := some vn } }, vn)
  | some _ =>
      let found ← vfsFindchld m node name
      if found.1 then some (m, found.2)
      else
        -- the search ended at the last child
        let last ← m.nodes[found.2]?
        let nodes := m.nodes ++ [vfsMknode last.parent name]
        some ({ m with nodes := nodes.set found.2 { last with sibling := some vn } }, vn)

/-- The loop of `vfs_mount`.  Every round uses up a character of the path. -/
def mountLoop : ℕ → Mounts W → VPath → ℕ → Option (Mounts W × ℕ)
  | 0, _, _, _ => none
  | fuel + 1, m, path, node =>
      let front := vfsResolve path
      if front.more = false then some (m, node)
      else do
        let mounted ← mountName m node front.name
        mountLoop fuel mounted.1 front.path mounted.2

/-- `vfs_mount`; a relative path stops the kernel. -/
def vfsMount (m : Mounts W) (path : CString) (driver : ℕ) : Option (Mounts W) := do
  if charAt path 0 ≠ slash then none
  else
    let mounted ← mountLoop (path.length + 1) m ⟨path, 0, 0, 0⟩ 0
    let node ← mounted.1.nodes[mounted.2]?
    some { mounted.1 with
      nodes := mounted.1.nodes.set mounted.2 { node with driver := some driver } }

/-- A sequence of calls of `vfs_mount`. -/
def vfsMountAll (m : Mounts W) (mounts : List (CString × ℕ)) : Option (Mounts W) :=
  mounts.foldlM (fun m mount => vfsMount m mount.1 mount.2) m

/-! ## Following the links -/

/-- The sibling link of a node. -/
def siblingOf (nodes : List VNode) (n : ℕ) : Option ℕ := nodes[n]?.bind VNode.sibling

/-- The driver of a node, if there is one. -/
def driverOf (nodes : List VNode) (n : ℕ) : Option ℕ := nodes[n]?.bind VNode.driver

/-- The children of a node, along the sibling links of the first one. -/
def Children (nodes : List VNode) (n : ℕ) (children : List ℕ) : Prop :=
  ∃ node, nodes[n]? = some node ∧ PointerList (siblingOf nodes) node.child children

/-- The child with a given name, as `vfs_findchld` finds it. -/
def childNamed (m : Mounts W) (n : ℕ) (name : CString) : Option ℕ :=
  match vfsFindchld m n name with
  | some (true, child) => some child
  | _ => none

/-- The node that names lead to through child and sibling links. -/
def walk (m : Mounts W) : ℕ → List CString → Option ℕ
  | n, [] => some n
  | n, name :: rest => (childNamed m n name).bind fun child => walk m child rest

theorem walk_append (m : Mounts W) :
    ∀ (ns rest : List CString) (n : ℕ),
      walk m n (ns ++ rest) = (walk m n ns).bind fun k => walk m k rest
  | [], _, _ => rfl
  | name :: ns, rest, n => by
      rw [List.cons_append, walk, walk]
      cases childNamed m n name with
      | none => rfl
      | some child => exact walk_append m ns rest child

/-! ## The trie -/

/-- The nodes form a trie: the `i`-th node lies at the `i`-th path, and no path
is taken twice. -/
structure Trie (nodes : List VNode) (paths : List (List CString)) (children : ℕ → List ℕ) :
    Prop where
  length_eq : paths.length = nodes.length
  root : paths[0]? = some []
  root_parent : ∃ node, nodes[0]? = some node ∧ node.parent = 0
  nodup : paths.Nodup
  chain : ∀ n node, nodes[n]? = some node →
    PointerList (siblingOf nodes) node.child (children n)
  child : ∀ n, ∀ c ∈ children n, ∃ path node, paths[n]? = some path ∧ nodes[c]? = some node ∧
    paths[c]? = some (path ++ [node.name]) ∧ node.parent = n
  complete : ∀ c node, c ≠ 0 → nodes[c]? = some node → c ∈ children node.parent
  children_nodup : ∀ n, (children n).Nodup

namespace Trie

variable {nodes : List VNode} {paths : List (List CString)} {children : ℕ → List ℕ}

theorem index_unique (h : Trie nodes paths children) {i j : ℕ} {path : List CString}
    (hi : paths[i]? = some path) (hj : paths[j]? = some path) : i = j := by
  obtain ⟨hlt, _⟩ := List.getElem?_eq_some_iff.mp hi
  exact (List.getElem?_inj hlt h.nodup).mp (hi.trans hj.symm)

theorem node_of_path (h : Trie nodes paths children) {n : ℕ} {path : List CString}
    (hn : paths[n]? = some path) : ∃ node, nodes[n]? = some node := by
  obtain ⟨hlt, _⟩ := List.getElem?_eq_some_iff.mp hn
  rw [h.length_eq] at hlt
  exact ⟨_, List.getElem?_eq_getElem hlt⟩

theorem path_of_node (h : Trie nodes paths children) {n : ℕ} {node : VNode}
    (hn : nodes[n]? = some node) : ∃ path, paths[n]? = some path := by
  obtain ⟨hlt, _⟩ := List.getElem?_eq_some_iff.mp hn
  rw [← h.length_eq] at hlt
  exact ⟨_, List.getElem?_eq_getElem hlt⟩

/-- A node other than the root lies one name below its parent. -/
theorem path_of_child (h : Trie nodes paths children) {c : ℕ} {node : VNode} (hc : c ≠ 0)
    (hnode : nodes[c]? = some node) :
    ∃ path, paths[node.parent]? = some path ∧ paths[c]? = some (path ++ [node.name]) := by
  obtain ⟨path, node', hpath, hnode', hchild, _⟩ := h.child _ c (h.complete c node hc hnode)
  rw [hnode] at hnode'
  cases hnode'
  exact ⟨path, hpath, hchild⟩

theorem children_lt (h : Trie nodes paths children) {n c : ℕ} (hc : c ∈ children n) :
    c < nodes.length := by
  obtain ⟨_, _, _, hnode, _⟩ := h.child n c hc
  exact (List.getElem?_eq_some_iff.mp hnode).1

theorem children_length_le (h : Trie nodes paths children) (n : ℕ) :
    (children n).length ≤ nodes.length := by
  have hsub : children n ⊆ List.range nodes.length := by
    intro c hc
    exact List.mem_range.mpr (h.children_lt hc)
  have := ((h.children_nodup n).subperm hsub).length_le
  rwa [List.length_range] at this

/-- The children of a node that is not there are none. -/
theorem children_eq_nil (h : Trie nodes paths children) {n : ℕ} (hn : nodes.length ≤ n) :
    children n = [] := by
  apply List.eq_nil_iff_forall_not_mem.mpr
  intro c hc
  obtain ⟨_, _, hpath, _⟩ := h.child n c hc
  have hlt := (List.getElem?_eq_some_iff.mp hpath).1
  rw [h.length_eq] at hlt
  exact absurd hlt (Nat.not_lt.mpr hn)

end Trie

/-! ## Finding a child -/

/-- The search along a list of siblings stops at the first with the name, or
else at the last one. -/
theorem findchldLoop_cases {m : Mounts W} {name : CString} :
    ∀ {fuel child : ℕ} {cs : List ℕ}, PointerList (siblingOf m.nodes) (some child) cs →
      (∀ c ∈ cs, ∃ node, m.nodes[c]? = some node) → cs.length ≤ fuel →
      (∃ c ∈ cs, ∃ node, m.nodes[c]? = some node ∧ node.name = name ∧
        findchldLoop m name fuel child = some (true, c)) ∨
      ((∀ c ∈ cs, ∀ node, m.nodes[c]? = some node → node.name ≠ name) ∧
        ∃ front last, cs = front ++ [last] ∧
          findchldLoop m name fuel child = some (false, last))
  | 0, _, _, hcs, _, hfuel => by
      cases hcs with
      | cons _ => exact absurd hfuel (Nat.not_succ_le_zero _)
  | fuel + 1, child, _, hcs, hnodes, hfuel => by
      cases hcs with
      | @cons _ cs hnext =>
          obtain ⟨node, hnode⟩ := hnodes child List.mem_cons_self
          by_cases hname : node.name = name
          · -- this is the child
            refine Or.inl ⟨child, List.mem_cons_self, node, hnode, hname, ?_⟩
            simp [findchldLoop, hnode, hname]
          have hother : ∀ c ∈ [child], ∀ node, m.nodes[c]? = some node → node.name ≠ name := by
            intro c hc node' hnode'
            rw [List.mem_singleton.mp hc, hnode] at hnode'
            cases hnode'
            exact hname
          have hsibling : siblingOf m.nodes child = node.sibling := by simp [siblingOf, hnode]
          rw [hsibling] at hnext
          cases hs : node.sibling with
          | none =>
              -- no sibling is left
              rw [hs] at hnext
              rw [hnext.eq_nil]
              refine Or.inr ⟨hother, [], child, rfl, ?_⟩
              simp [findchldLoop, hnode, hname, hs]
          | some sibling =>
              rw [hs] at hnext
              have hstep : findchldLoop m name (fuel + 1) child =
                  findchldLoop m name fuel sibling := by
                simp [findchldLoop, hnode, hname, hs]
              rw [hstep]
              rcases findchldLoop_cases hnext
                  (fun c hc => hnodes c (List.mem_cons_of_mem _ hc))
                  (Nat.le_of_succ_le_succ hfuel) with
                ⟨c, hc, hfound⟩ | ⟨hnone, front, last, heq, hlast⟩
              · exact Or.inl ⟨c, List.mem_cons_of_mem _ hc, hfound⟩
              · refine Or.inr ⟨?_, child :: front, last, by rw [heq]; rfl, hlast⟩
                intro c hc
                rcases List.mem_cons.mp hc with rfl | hc
                · exact hother c List.mem_cons_self
                · exact hnone c hc

namespace Trie

variable {m : Mounts W} {paths : List (List CString)} {children : ℕ → List ℕ}

/-- `vfs_findchld` at a node that has children. -/
theorem vfsFindchld_cases (h : Trie m.nodes paths children) {n : ℕ} {node : VNode}
    (hnode : m.nodes[n]? = some node) (hchild : node.child ≠ none) (name : CString) :
    (∃ c ∈ children n, ∃ child, m.nodes[c]? = some child ∧ child.name = name ∧
      vfsFindchld m n name = some (true, c)) ∨
    ((∀ c ∈ children n, ∀ child, m.nodes[c]? = some child → child.name ≠ name) ∧
      ∃ front last, children n = front ++ [last] ∧
        vfsFindchld m n name = some (false, last)) := by
  obtain ⟨first, hfirst⟩ := Option.ne_none_iff_exists'.mp hchild
  have hchain := h.chain n node hnode
  rw [hfirst] at hchain
  have heq : vfsFindchld m n name = findchldLoop m name m.nodes.length first := by
    simp [vfsFindchld, hnode, hfirst]
  rw [heq]
  apply findchldLoop_cases hchain
  · intro c hc
    obtain ⟨_, child, _, hc', _⟩ := h.child n c hc
    exact ⟨child, hc'⟩
  · exact h.children_length_le n

/-- `vfs_findchld` at a node without children reads through a null pointer. -/
theorem vfsFindchld_eq_none {n : ℕ} {node : VNode} (hnode : m.nodes[n]? = some node)
    (hchild : node.child = none) (name : CString) : vfsFindchld m n name = none := by
  simp [vfsFindchld, hnode, hchild]

/-- A child is found by its name exactly when it lies one name further. -/
theorem childNamed_eq_some_iff (h : Trie m.nodes paths children) {n c : ℕ} {name : CString} :
    childNamed m n name = some c ↔
      ∃ path, paths[n]? = some path ∧ paths[c]? = some (path ++ [name]) := by
  constructor
  · intro hfound
    cases hnode : m.nodes[n]? with
    | none => simp [childNamed, vfsFindchld, hnode] at hfound
    | some node =>
        by_cases hchild : node.child = none
        · simp [childNamed, vfsFindchld_eq_none hnode hchild] at hfound
        rcases h.vfsFindchld_cases hnode hchild name with
          ⟨d, hd, child, hdnode, hname, heq⟩ | ⟨_, _, _, _, heq⟩
        · simp only [childNamed, heq, Option.some.injEq] at hfound
          subst hfound
          obtain ⟨path, child', hpath, hnode', hdpath, _⟩ := h.child n d hd
          rw [hdnode] at hnode'
          cases hnode'
          rw [hname] at hdpath
          exact ⟨path, hpath, hdpath⟩
        · simp [childNamed, heq] at hfound
  · rintro ⟨path, hn, hc⟩
    obtain ⟨cnode, hcnode⟩ := h.node_of_path hc
    obtain ⟨node, hnode⟩ := h.node_of_path hn
    have hroot : c ≠ 0 := by
      rintro rfl
      rw [h.root] at hc
      simp at hc
    have hmem := h.complete c cnode hroot hcnode
    obtain ⟨path', hpath', hc'⟩ := h.path_of_child hroot hcnode
    obtain ⟨rfl, hname⟩ := List.append_singleton_inj.mp (Option.some.inj (hc.symm.trans hc'))
    rw [h.index_unique hpath' hn] at hmem
    have hchild : node.child ≠ none := by
      intro hnone
      have hchain := h.chain n node hnode
      rw [hnone] at hchain
      rw [hchain.eq_nil] at hmem
      cases hmem
    rcases h.vfsFindchld_cases hnode hchild name with
      ⟨d, hd, child, hdnode, hdname, heq⟩ | ⟨hother, _⟩
    · obtain ⟨path', child', hn', hnode', hd', _⟩ := h.child n d hd
      rw [hdnode] at hnode'
      cases hnode'
      rw [hn] at hn'
      cases hn'
      rw [hdname] at hd'
      rw [childNamed, heq, h.index_unique hd' hc]
    · exact absurd hname.symm (hother c hmem cnode hcnode)

/-- Names lead to the node that lies at them. -/
theorem walk_eq_some_iff (h : Trie m.nodes paths children) {path : List CString} {n : ℕ} :
    walk m 0 path = some n ↔ paths[n]? = some path := by
  induction path using List.reverseRecOn generalizing n with
  | nil =>
      constructor
      · intro heq
        cases heq
        exact h.root
      · intro hn
        rw [h.index_unique hn h.root]
        rfl
  | append_singleton path name ih =>
      rw [walk_append]
      constructor
      · intro heq
        obtain ⟨k, hk, hstep⟩ := Option.bind_eq_some_iff.mp heq
        obtain ⟨c, hc, hend⟩ := Option.bind_eq_some_iff.mp hstep
        cases hend
        obtain ⟨path', hk', hc'⟩ := h.childNamed_eq_some_iff.mp hc
        rw [ih.mp hk] at hk'
        cases hk'
        exact hc'
      · intro hn
        have hroot : n ≠ 0 := by
          rintro rfl
          rw [h.root] at hn
          simp at hn
        obtain ⟨node, hnode⟩ := h.node_of_path hn
        obtain ⟨path', hparent, hn'⟩ := h.path_of_child hroot hnode
        obtain ⟨rfl, rfl⟩ := List.append_singleton_inj.mp (Option.some.inj (hn.symm.trans hn'))
        rw [ih.mpr hparent]
        have hstep := h.childNamed_eq_some_iff.mpr ⟨path, hparent, hn⟩
        simp [walk, hstep]

/-- The children of a node, read off its links. -/
theorem children_iff (h : Trie m.nodes paths children) {n : ℕ} {cs : List ℕ} :
    Children m.nodes n cs ↔ n < m.nodes.length ∧ cs = children n := by
  constructor
  · rintro ⟨node, hnode, hcs⟩
    exact ⟨(List.getElem?_eq_some_iff.mp hnode).1, hcs.unique (h.chain n node hnode)⟩
  · rintro ⟨hn, rfl⟩
    have hnode := List.getElem?_eq_getElem hn
    exact ⟨_, hnode, h.chain n _ hnode⟩

end Trie

/-! ## Making a node -/

/-- The children when a node was linked behind those of `n`. -/
def linkChild (children : ℕ → List ℕ) (n new : ℕ) : ℕ → List ℕ :=
  Function.update children n (children n ++ [new])

theorem mem_linkChild {children : ℕ → List ℕ} {n new i c : ℕ} :
    c ∈ linkChild children n new i ↔ c ∈ children i ∨ i = n ∧ c = new := by
  by_cases hi : i = n
  · subst hi
    simp [linkChild]
  · simp [linkChild, hi]

theorem linkChild_of_ne {children : ℕ → List ℕ} {n new i : ℕ} (h : i ≠ n) :
    linkChild children n new i = children i := Function.update_of_ne h _ _

@[simp] theorem linkChild_self {children : ℕ → List ℕ} {n new : ℕ} :
    linkChild children n new n = children n ++ [new] := Function.update_self _ _ _

/-- What linking a new child behind the children of a node does to the nodes:
one link is changed, and a node is added. -/
structure Grown (nodes nodes' : List VNode) (n : ℕ) (name : CString) (children : ℕ → List ℕ) :
    Prop where
  length_eq : nodes'.length = nodes.length + 1
  new : nodes'[nodes.length]? = some (vfsMknode n name)
  old : ∀ i node, nodes[i]? = some node → ∃ node', nodes'[i]? = some node' ∧
    node'.parent = node.parent ∧ node'.name = node.name ∧ node'.driver = node.driver ∧
    PointerList (siblingOf nodes') node'.child (linkChild children n nodes.length i)

namespace Grown

variable {nodes nodes' : List VNode} {children : ℕ → List ℕ} {n : ℕ} {name : CString}

/-- Every node is an old one or the new one. -/
theorem cases (h : Grown nodes nodes' n name children) {i : ℕ} {node' : VNode}
    (hi : nodes'[i]? = some node') :
    (∃ node, nodes[i]? = some node ∧ node'.parent = node.parent ∧ node'.name = node.name ∧
      node'.driver = node.driver ∧
      PointerList (siblingOf nodes') node'.child (linkChild children n nodes.length i)) ∨
    (i = nodes.length ∧ node' = vfsMknode n name) := by
  have hlt := (List.getElem?_eq_some_iff.mp hi).1
  rw [h.length_eq] at hlt
  rcases Nat.lt_succ_iff_lt_or_eq.mp hlt with hold | rfl
  · obtain ⟨node'', hnode'', hrest⟩ := h.old i _ (List.getElem?_eq_getElem hold)
    rw [hi] at hnode''
    cases hnode''
    exact Or.inl ⟨_, List.getElem?_eq_getElem hold, hrest⟩
  · rw [h.new] at hi
    exact Or.inr ⟨rfl, (Option.some.inj hi).symm⟩

/-- No driver is changed, and the new node has none. -/
theorem driverOf_eq (h : Grown nodes nodes' n name children) (i : ℕ) :
    driverOf nodes' i = driverOf nodes i := by
  cases hi : nodes'[i]? with
  | none =>
      have hlen := List.getElem?_eq_none_iff.mp hi
      rw [h.length_eq] at hlen
      have hold : nodes[i]? = none := List.getElem?_eq_none_iff.mpr (by omega)
      simp [driverOf, hi, hold]
  | some node' =>
      rcases h.cases hi with ⟨node, hnode, _, _, hdriver, _⟩ | ⟨rfl, rfl⟩
      · simp [driverOf, hi, hnode, hdriver]
      · simp [driverOf, hi, vfsMknode]

end Grown

namespace Trie

variable {nodes nodes' : List VNode} {paths : List (List CString)} {children : ℕ → List ℕ}

/-- The trie with the new child. -/
theorem grow (h : Trie nodes paths children) {n : ℕ} {name : CString} {path : List CString}
    (hn : paths[n]? = some path) (hnew : path ++ [name] ∉ paths)
    (hgrown : Grown nodes nodes' n name children) :
    Trie nodes' (paths ++ [path ++ [name]]) (linkChild children n nodes.length) := by
  have hlt := (List.getElem?_eq_some_iff.mp hn).1
  rw [h.length_eq] at hlt
  have hkeep : ∀ {i : ℕ} {q : List CString}, paths[i]? = some q →
      (paths ++ [path ++ [name]])[i]? = some q := by
    intro i q hi
    rw [List.getElem?_append_left (List.getElem?_eq_some_iff.mp hi).1]
    exact hi
  have hlast : (paths ++ [path ++ [name]])[nodes.length]? = some (path ++ [name]) := by
    rw [← h.length_eq]
    exact List.getElem?_concat_length
  refine ⟨?_, hkeep h.root, ?_, ?_, ?_, ?_, ?_, ?_⟩
  · rw [List.length_append, h.length_eq, hgrown.length_eq]
    rfl
  · obtain ⟨node, hnode, hparent⟩ := h.root_parent
    obtain ⟨node', hnode', hparent', _⟩ := hgrown.old 0 node hnode
    exact ⟨node', hnode', by rw [hparent', hparent]⟩
  · refine List.nodup_append.mpr ⟨h.nodup, List.nodup_singleton _, ?_⟩
    rintro q hq r hr rfl
    rw [List.mem_singleton] at hr
    subst hr
    exact hnew hq
  · intro i node' hi
    rcases hgrown.cases hi with ⟨_, _, _, _, _, hchain⟩ | ⟨rfl, rfl⟩
    · exact hchain
    · rw [linkChild_of_ne (Nat.ne_of_gt hlt), h.children_eq_nil (le_refl _)]
      exact .nil
  · intro i c hc
    rcases mem_linkChild.mp hc with hc | ⟨rfl, rfl⟩
    · obtain ⟨q, node, hq, hnode, hcq, hparent⟩ := h.child i c hc
      obtain ⟨node', hnode', hparent', hname', _⟩ := hgrown.old c node hnode
      refine ⟨q, node', hkeep hq, hnode', ?_, by rw [hparent', hparent]⟩
      rw [hname']
      exact hkeep hcq
    · exact ⟨path, _, hkeep hn, hgrown.new, hlast, rfl⟩
  · intro c node' hc hnode'
    rcases hgrown.cases hnode' with ⟨node, hnode, hparent, _⟩ | ⟨rfl, rfl⟩
    · rw [hparent]
      exact mem_linkChild.mpr (Or.inl (h.complete c node hc hnode))
    · exact mem_linkChild.mpr (Or.inr ⟨rfl, rfl⟩)
  · intro i
    by_cases hi : i = n
    · subst hi
      rw [linkChild_self]
      refine List.nodup_append.mpr ⟨h.children_nodup i, List.nodup_singleton _, ?_⟩
      rintro c hc d hd rfl
      rw [List.mem_singleton] at hd
      subst hd
      exact absurd (h.children_lt hc) (Nat.lt_irrefl _)
    · rw [linkChild_of_ne hi]
      exact h.children_nodup i

/-- The chains of the other nodes survive a change of one sibling link that no
chain but that of `n` goes through. -/
theorem chain_congr (h : Trie nodes paths children) {n i : ℕ} {node : VNode}
    (hnode : nodes[i]? = some node) (hne : i ≠ n)
    (hsibling : ∀ c < nodes.length, c ∉ children n → siblingOf nodes' c = siblingOf nodes c) :
    PointerList (siblingOf nodes') node.child (children i) := by
  refine (h.chain i node hnode).congr ?_
  intro c hc
  apply hsibling c (h.children_lt hc)
  intro hcn
  obtain ⟨_, child, _, hchild, _, hparent⟩ := h.child i c hc
  obtain ⟨_, child', _, hchild', _, hparent'⟩ := h.child n c hcn
  rw [hchild] at hchild'
  cases hchild'
  exact hne (hparent.symm.trans hparent')

end Trie

/-! ## One name of a mounted path -/

/-- A list after one element was added at its end and one of the old ones
replaced. -/
def relink (nodes : List VNode) (new : VNode) (k : ℕ) (node : VNode) : List VNode :=
  (nodes ++ [new]).set k node

section Relink

variable {nodes : List VNode} {new node : VNode} {i k : ℕ}

theorem relink_length : (relink nodes new k node).length = nodes.length + 1 := by
  simp [relink]

theorem relink_self (hk : k < nodes.length) : (relink nodes new k node)[k]? = some node := by
  apply List.getElem?_set_self
  rw [List.length_append]
  exact Nat.lt_add_right _ hk

theorem relink_new (hk : k < nodes.length) :
    (relink nodes new k node)[nodes.length]? = some new := by
  rw [relink, List.getElem?_set_ne (Nat.ne_of_lt hk)]
  exact List.getElem?_concat_length

theorem relink_old (hi : i < nodes.length) (hne : i ≠ k) :
    (relink nodes new k node)[i]? = nodes[i]? := by
  rw [relink, List.getElem?_set_ne (Ne.symm hne), List.getElem?_append_left hi]

theorem siblingOf_relink_old (hi : i < nodes.length) (hne : i ≠ k) :
    siblingOf (relink nodes new k node) i = siblingOf nodes i := by
  rw [siblingOf, siblingOf, relink_old hi hne]

end Relink

section MountName

variable {m : Mounts W} {paths : List (List CString)} {children : ℕ → List ℕ}

/-- The first child of a node is made. -/
theorem grown_first (h : Trie m.nodes paths children) {n : ℕ} {node : VNode} (name : CString)
    (hnode : m.nodes[n]? = some node) (hchild : node.child = none) :
    Grown m.nodes
      (relink m.nodes (vfsMknode n name) n { node with child := some m.nodes.length })
      n name children := by
  have hlt := (List.getElem?_eq_some_iff.mp hnode).1
  have hnil : children n = [] := by
    have hchain := h.chain n node hnode
    rw [hchild] at hchain
    exact hchain.eq_nil
  refine ⟨relink_length, relink_new hlt, ?_⟩
  intro i old hold
  have hi := (List.getElem?_eq_some_iff.mp hold).1
  by_cases hin : i = n
  · subst hin
    rw [hnode] at hold
    cases hold
    refine ⟨_, relink_self hlt, rfl, rfl, rfl, ?_⟩
    rw [linkChild_self, hnil]
    apply PointerList.cons
    rw [siblingOf, relink_new hlt]
    exact .nil
  · refine ⟨old, by rw [relink_old hi hin, hold], rfl, rfl, rfl, ?_⟩
    rw [linkChild_of_ne hin]
    apply h.chain_congr hold hin
    intro c hc _
    by_cases hcn : c = n
    · subst hcn
      simp [siblingOf, relink_self hlt, hnode]
    · exact siblingOf_relink_old hc hcn

/-- A child is made behind the last one. -/
theorem grown_last (h : Trie m.nodes paths children) {n last : ℕ} {front : List ℕ} {node : VNode}
    (name : CString) (hchildren : children n = front ++ [last])
    (hnode : m.nodes[last]? = some node) :
    Grown m.nodes
      (relink m.nodes (vfsMknode n name) last { node with sibling := some m.nodes.length })
      n name children := by
  have hlt := (List.getElem?_eq_some_iff.mp hnode).1
  have hmem : last ∈ children n := by simp [hchildren]
  have hnotin : last ∉ front := by
    have hnodup := h.children_nodup n
    rw [hchildren] at hnodup
    intro hin
    exact (List.nodup_append.mp hnodup).2.2 last hin last List.mem_cons_self rfl
  have hsibling : ∀ c < m.nodes.length, c ≠ last →
      siblingOf (relink m.nodes (vfsMknode n name) last
        { node with sibling := some m.nodes.length }) c = siblingOf m.nodes c :=
    fun c hc hne => siblingOf_relink_old hc hne
  have hlinked : ∀ i old, m.nodes[i]? = some old →
      PointerList (siblingOf (relink m.nodes (vfsMknode n name) last
        { node with sibling := some m.nodes.length })) old.child
        (linkChild children n m.nodes.length i) := by
    intro i old hold
    by_cases hin : i = n
    · subst hin
      rw [linkChild_self, hchildren]
      have hchain := h.chain i old hold
      rw [hchildren] at hchain
      refine hchain.append_last ?_ ?_ ?_
      · intro c hc
        refine hsibling c (h.children_lt (n := i) (by simp [hchildren, hc])) ?_
        rintro rfl
        exact hnotin hc
      · rw [siblingOf, relink_self hlt]
        rfl
      · rw [siblingOf, relink_new hlt]
        rfl
    · rw [linkChild_of_ne hin]
      apply h.chain_congr hold hin
      intro c hc hcn
      apply hsibling c hc
      rintro rfl
      exact hcn hmem
  refine ⟨relink_length, relink_new hlt, ?_⟩
  intro i old hold
  by_cases hil : i = last
  · subst hil
    rw [hnode] at hold
    cases hold
    exact ⟨_, relink_self hlt, rfl, rfl, rfl, hlinked i node hnode⟩
  · have hi := (List.getElem?_eq_some_iff.mp hold).1
    exact ⟨old, by rw [relink_old hi hil, hold], rfl, rfl, rfl, hlinked i old hold⟩

/-- One round of `vfs_mount` goes one name further, and makes the node when it
was not there. -/
theorem mountName_spec (h : Trie m.nodes paths children) {n : ℕ} {path : List CString}
    (hn : paths[n]? = some path) (name : CString) :
    ∃ m' c new children', mountName m n name = some (m', c) ∧ m'.drivers = m.drivers ∧
      Trie m'.nodes (paths ++ new) children' ∧ (paths ++ new)[c]? = some (path ++ [name]) ∧
      (∀ q ∈ new, q = path ++ [name]) ∧ ∀ i, driverOf m'.nodes i = driverOf m.nodes i := by
  obtain ⟨node, hnode⟩ := h.node_of_path hn
  have hlast : ∀ (q : List CString), (paths ++ [q])[m.nodes.length]? = some q := by
    intro q
    rw [← h.length_eq]
    exact List.getElem?_concat_length
  -- the path is new when no child has the name
  have hmissing : (∀ c ∈ children n, ∀ child, m.nodes[c]? = some child → child.name ≠ name) →
      path ++ [name] ∉ paths := by
    intro hother hmem
    obtain ⟨c, hc⟩ := List.mem_iff_getElem?.mp hmem
    have hroot : c ≠ 0 := by
      rintro rfl
      rw [h.root] at hc
      simp at hc
    obtain ⟨child, hchild⟩ := h.node_of_path hc
    obtain ⟨path', hparent, hc'⟩ := h.path_of_child hroot hchild
    obtain ⟨rfl, hname⟩ := List.append_singleton_inj.mp (Option.some.inj (hc.symm.trans hc'))
    have hin := h.complete c child hroot hchild
    rw [h.index_unique hparent hn] at hin
    exact hother c hin child hchild hname.symm
  cases hchild : node.child with
  | none =>
      have hgrown := grown_first h name hnode hchild
      have hnew := hmissing (by
        intro c hc
        have hchain := h.chain n node hnode
        rw [hchild] at hchain
        rw [hchain.eq_nil] at hc
        cases hc)
      refine ⟨.mk _ m.drivers, _, [path ++ [name]], _, ?_, by rfl, h.grow hn hnew hgrown, hlast _, ?_,
        hgrown.driverOf_eq⟩
      · simp [mountName, hnode, hchild]
      · simp
  | some first =>
      rcases h.vfsFindchld_cases hnode (by simp [hchild]) name with
        ⟨c, hc, child, hcnode, hname, hfound⟩ | ⟨hother, front, last, heq, hfound⟩
      · -- the child is there
        obtain ⟨path', child', hn', hcnode', hcpath, _⟩ := h.child n c hc
        rw [hcnode] at hcnode'
        cases hcnode'
        rw [hn] at hn'
        cases hn'
        rw [hname] at hcpath
        refine ⟨m, c, [], children, ?_, rfl, ?_, ?_, ?_, fun _ => rfl⟩
        · simp [mountName, hnode, hchild, hfound]
        · rwa [List.append_nil]
        · rwa [List.append_nil]
        · simp
      · -- it is made behind the last one
        obtain ⟨_, lnode, _, hlnode, _, hparent⟩ := h.child n last (by simp [heq])
        have hgrown := grown_last h name heq hlnode
        refine ⟨.mk _ m.drivers, _, [path ++ [name]], _, ?_, by rfl,
          h.grow hn (hmissing hother) hgrown, hlast _, ?_,
          hgrown.driverOf_eq⟩
        · simp [mountName, hnode, hchild, hfound, hlnode, hparent]
        · simp

end MountName

end Neos.Vfs
