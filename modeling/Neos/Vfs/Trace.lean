import Neos.Vfs.Guarded

/-!
# Tracing a reference

`vfs_trace` writes the path of a reference.  It goes up from a copy one `..` at
a time, whatever the drivers answer to that, and takes the names from the
drivers and from the nodes of the mount tree.  A path that is written this way
has the same names when it is read again.
-/

namespace Neos.Vfs

variable {W : Type}

/-! ## `vfs_trace` -/

/-- The operation `lookup` of the drivers: the result, and the name it writes on
success. -/
abbrev Lookup (W : Type) := ℕ → VRef → W → ℤ × CString

/-- The name of a reference: that of its driver, or else that of its node. -/
def traceName (lookup : Lookup W) (node : VNode) (vref : VRef) (w : W) : CString :=
  match vref.driver with
  | none => node.name
  | some driver =>
      if (lookup driver vref w).1 ≠ 0 then node.name else (lookup driver vref w).2

/-- The first loop of `vfs_trace`, with the room left in the array of names: it
stops at the root of the mount tree or when the array is full.  The result of
`vfs_enter` is ignored. -/
def traceLoop (m : Mounts W) (lookup : Lookup W) :
    ℕ → VRef → W → List CString → Option (List CString × VRef × W)
  | 0, vref, w, path => some (path, vref, w)
  | room + 1, vref, w, path =>
      if vref.node = 0 ∧ vref.offset = 0 then some (path, vref, w)
      else do
        let node ← m.nodes[vref.node]?
        let entered ← vfsEnter m vref [46, 46] 0 w
        traceLoop m lookup room entered.vref entered.world (traceName lookup node vref w :: path)

/-- The second loop of `vfs_trace`: names are written while there is room. -/
def traceOutput (size : ℕ) : List CString → CString → CString
  | [], output => output
  | name :: path, output =>
      if output.length + name.length ≥ size then output
      else traceOutput size path (output ++ name ++ [slash])

/-- `vfs_trace`: the string written to the buffer. -/
def vfsTrace (m : Mounts W) (lookup : Lookup W) (vref : VRef) (size : ℕ) (w : W) :
    Option (CString × W) := do
  let copied := vfsRefcpy m vref w
  let updated ← vfsUpdate m copied.1 copied.2
  let traced ← traceLoop m lookup pathMaxResolves updated.vref updated.world []
  some (traceOutput size traced.1 [slash], (vfsClose m traced.2.1 traced.2.2).world)

/-! ## Paths and their names -/

/-- A slash, and every name followed by one. -/
def render (ns : List CString) : CString := slash :: ns.flatMap (· ++ [slash])

/-- A name that can stand in a path. -/
def Clean (name : CString) : Prop := slash ∉ name ∧ 0 ∉ name

theorem sections_render : ∀ {ns : List CString}, (∀ name ∈ ns, Clean name) →
    sections (render ns) = ns
  | [], _ => sections_nil rfl
  | name :: ns, h => by
      have hclean := h name List.mem_cons_self
      have hstrip : stripSlash (render (name :: ns)) = name ++ slash :: ns.flatMap (· ++ [slash]) := by
        rw [render, stripSlash, if_pos rfl, List.flatMap_cons, List.append_assoc]
        rfl
      rw [sections_cons, hstrip, nextName_append hclean.1, afterName_append hclean.1]
      · congr 1
        exact sections_render fun n hn => h n (List.mem_cons_of_mem _ hn)
      · rw [hstrip]
        simp

/-- The names of a path that was written are the ones it was written from. -/
theorem names_render {ns : List CString} (h : ∀ name ∈ ns, Clean name) :
    names (render ns) = ns := by
  have hzero : ∀ c ∈ render ns, c ≠ 0 := by
    intro c hc
    rcases List.mem_cons.mp hc with rfl | hc
    · decide
    · obtain ⟨name, hname, hc⟩ := List.mem_flatMap.mp hc
      rcases List.mem_append.mp hc with hc | hc
      · rintro rfl
        exact (h name hname).2 hc
      · rw [List.mem_singleton.mp hc]
        decide
  have htail : tail (render ns) 0 = render ns := by
    rw [tail, List.drop_zero, List.takeWhile_eq_self_iff]
    intro c hc
    simpa using hzero c hc
  rw [names, htail, sections_render h]

theorem sections_clean : ∀ {r : CString}, 0 ∉ r → ∀ name ∈ sections r, Clean name := by
  intro r
  induction r using sections.induct with
  | case1 r hdone =>
      intro _ name hname
      rw [sections_nil hdone] at hname
      cases hname
  | case2 r hmore ih =>
      intro hzero name hname
      have hstrip : ∀ c ∈ stripSlash r, c ∈ r := by
        intro c hc
        cases r with
        | nil => cases hc
        | cons d rest =>
            rw [stripSlash] at hc
            split at hc
            · exact List.mem_cons_of_mem _ hc
            · exact hc
      rw [sections_cons hmore] at hname
      rcases List.mem_cons.mp hname with rfl | hname
      · refine ⟨fun hslash => ?_, fun hc => ?_⟩
        · have hne := List.mem_takeWhile_imp hslash
          simp at hne
        · exact hzero (hstrip 0 ((List.takeWhile_prefix _).subset hc))
      · exact ih (fun hc => hzero (hstrip 0 ((List.dropWhile_suffix _).subset hc))) name hname

theorem names_clean (path : CString) : ∀ name ∈ names path, Clean name := by
  refine sections_clean fun hzero => ?_
  have hne := List.mem_takeWhile_imp hzero
  simp at hne

theorem render_injective {ns ns' : List CString} (h : ∀ name ∈ ns, Clean name)
    (h' : ∀ name ∈ ns', Clean name) (heq : render ns = render ns') : ns = ns' := by
  rw [← names_render h, heq, names_render h']

/-- With enough room everything is written. -/
theorem traceOutput_eq {size : ℕ} : ∀ (ns : List CString) (output : CString),
    output.length + (ns.flatMap (· ++ [slash])).length ≤ size →
      traceOutput size ns output = output ++ ns.flatMap (· ++ [slash])
  | [], output, _ => (List.append_nil output).symm
  | name :: ns, output, h => by
      rw [List.flatMap_cons, List.length_append, List.length_append, List.length_singleton] at h
      rw [traceOutput, if_neg (by omega), traceOutput_eq ns _ (by
        rw [List.length_append, List.length_append, List.length_singleton]
        omega), List.flatMap_cons, List.append_assoc, List.append_assoc, List.append_assoc]

/-- The room that is enough for any path. -/
def traceRoom : ℕ := 1 + pathMaxResolves * fileMaxName

theorem traceOutput_render {size : ℕ} {ns : List CString} (hroom : traceRoom ≤ size)
    (hcount : ns.length ≤ pathMaxResolves) (hlength : ∀ name ∈ ns, name.length < fileMaxName) :
    traceOutput size ns [slash] = render ns := by
  have hbound : ∀ ns : List CString, (∀ name ∈ ns, name.length < fileMaxName) →
      (ns.flatMap (· ++ [slash])).length ≤ ns.length * fileMaxName := by
    intro ns
    induction ns with
    | nil => exact fun _ => Nat.zero_le _
    | cons name ns ih =>
        intro h
        have hname := h name List.mem_cons_self
        have hrest := ih fun n hn => h n (List.mem_cons_of_mem _ hn)
        rw [List.flatMap_cons, List.length_append, List.length_append, List.length_singleton,
          List.length_cons, Nat.add_mul]
        omega
  refine traceOutput_eq ns [slash] ?_
  have hlen := hbound ns hlength
  have hmul := Nat.mul_le_mul_right fileMaxName hcount
  rw [List.length_singleton]
  unfold traceRoom at hroom
  omega

end Neos.Vfs
