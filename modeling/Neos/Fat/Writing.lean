import Neos.Fat.Chains

/-!
# Writing along a chain

The loop of `fat_fwrite`: it follows the chain, takes free clusters when the data
does not fit, and stores the data.  All that it leaves behind in the FAT and in
the clusters is stated once, for the part of the chain from a cluster on.
-/

namespace Neos.Fat

open ByteRange

variable {g : Bpb} {s s' : State} {c : ℕ} {rest new : List ℕ} {data : ℕ → UInt8} {p n a : ℕ}

/-- The FAT entry of the last cluster, for `fat_fwrite`: a mark, or zero when the
cluster was only just taken. -/
def OpenEnd (v : ℕ) : Prop := v = 0 ∨ EndMark v

/-! ## Storing the data of one round -/

/-- The data written in the round for a cluster with `a` bytes of the chain before
it. -/
def roundWrite (g : Bpb) (data : ℕ → UInt8) (p n a c : ℕ) (s : State) : State :=
  if a + g.clusterSize > p then
    s.write (u32 (g.clusterOffset c +
        (transferPart g p n (a + g.clusterSize) g.clusterSize (min n (a - p))).1))
      (readBytes data (min n (a - p))
        (transferPart g p n (a + g.clusterSize) g.clusterSize (min n (a - p))).2)
  else s

/-- The round stores the bytes of the data that belong into the cluster. -/
theorem roundWrite_eq (data : ℕ → UInt8) (p : ℕ) (s : State) (hg : Geometry g)
    (hc : ValidCluster g c) (hlt : a + g.clusterSize < 2 ^ 32)
    (hn : n < 2 ^ 32) :
    ∃ k bs, k + bs.length ≤ g.clusterSize ∧
      roundWrite g data p n a c s = s.write (g.clusterOffset c + k) bs ∧
        ∀ j, j < g.clusterSize → (k ≤ j ∧ j < k + bs.length ↔ p ≤ a + j ∧ a + j < p + n) ∧
          (k ≤ j → j < k + bs.length → bs.getD (j - k) 0 = data (a + j - p)) := by
  unfold roundWrite
  split
  · rename_i hp
    have hend := hg.cluster_lt hc
    have hpos := hg.clusterSize_pos
    rw [transferPart_eq hg.clusterSize_lt le_rfl hp (by omega) hlt hn]
    dsimp only
    rw [u32_of_lt (by omega)]
    refine ⟨p - a, _, ?_, rfl, ?_⟩
    · rw [length_readBytes]
      omega
    · intro j hj
      rw [length_readBytes]
      constructor
      · omega
      · intro h₁ h₂
        rw [getD_readBytes _ _ (by omega)]
        congr 1
        omega
  · refine ⟨0, [], by simp, ?_, ?_⟩
    · rw [State.write, writeBytes_nil]
    · intro j hj
      rw [List.length_nil]
      omega

theorem roundWrite_fat (hg : Geometry g) (hc : ValidCluster g c)
    (hlt : a + g.clusterSize < 2 ^ 32) (hn : n < 2 ^ 32) {x : ℕ} (hx : x < clusterLimit g) :
    fatEntry g (roundWrite g data p n a c s).disk x = fatEntry g s.disk x := by
  obtain ⟨k, bs, -, heq, -⟩ := roundWrite_eq data p s hg hc hlt hn
  rw [heq, fatEntry_writeCluster hg hc hx]

theorem roundWrite_other (hg : Geometry g) (hc : ValidCluster g c)
    (hlt : a + g.clusterSize < 2 ^ 32) (hn : n < 2 ^ 32) {x j : ℕ} (hx : ValidCluster g x)
    (hne : x ≠ c) (hj : j < g.clusterSize) :
    clusterByte g (roundWrite g data p n a c s).disk x j = clusterByte g s.disk x j := by
  obtain ⟨k, bs, hk, heq, -⟩ := roundWrite_eq data p s hg hc hlt hn
  rw [heq, clusterByte_writeCluster hg hc hx hk hj, if_neg (fun h => hne h.1)]

theorem roundWrite_self (hg : Geometry g) (hc : ValidCluster g c)
    (hlt : a + g.clusterSize < 2 ^ 32) (hn : n < 2 ^ 32) {j : ℕ} (hj : j < g.clusterSize) :
    clusterByte g (roundWrite g data p n a c s).disk c j =
      if p ≤ a + j ∧ a + j < p + n then data (a + j - p) else clusterByte g s.disk c j := by
  obtain ⟨k, bs, hk, heq, hbytes⟩ := roundWrite_eq data p s hg hc hlt hn
  obtain ⟨hrange, hvalue⟩ := hbytes j hj
  rw [heq, clusterByte_writeCluster hg hc hc hk hj]
  by_cases h : p ≤ a + j ∧ a + j < p + n
  · obtain ⟨h₁, h₂⟩ := hrange.mpr h
    rw [if_pos h, if_pos ⟨rfl, h₁, h₂⟩, hvalue h₁ h₂]
  · rw [if_neg h, if_neg (fun hall => h (hrange.mp hall.2))]

theorem roundWrite_taken : (roundWrite g data p n a c s).taken = s.taken := by
  unfold roundWrite
  split
  · rw [State.write_taken]
  · rfl

/-! ## Finding a free cluster -/

/-- The search returns a cluster whose FAT entry is zero, not before the one it
starts from. -/
theorem findFreeCluster_spec (hg : Geometry g) :
    ∀ {rounds start : ℕ} {s : State} {r : Option ℕ × State}, CacheFresh s → start < 2 ^ 24 →
      findFreeCluster g rounds start s = some r →
        r.2.disk = s.disk ∧
          (r.1 = none ∧ r.2.taken = s.taken ∨
            ∃ f, r.1 = some f ∧ r.2.taken = f :: s.taken ∧ start ≤ f ∧ f < 2 ^ 24 ∧
              fatEntry g s.disk f = 0)
  | rounds + 1, start, s, r, hs, hstart, hfind => by
      obtain ⟨s', hread, hlooked⟩ := fatReadFatEntry_cached hg hs (c := start) (by omega)
      unfold findFreeCluster at hfind
      rw [hread] at hfind
      dsimp only at hfind
      split at hfind
      · rename_i hfree
        rw [← Option.some_inj.mp hfind]
        refine ⟨hlooked.disk, .inr ⟨start, rfl, ?_, le_rfl, hstart, hfree⟩⟩
        rw [← hlooked.taken]
      · have hnext : u32 (start + 1) = start + 1 := u32_of_lt (by omega)
        rw [hnext] at hfind
        split at hfind
        · rw [← Option.some_inj.mp hfind]
          exact ⟨hlooked.disk, .inl ⟨rfl, hlooked.taken⟩⟩
        · rename_i hmore
          have hspc := hg.secPerClus_pos
          have hspc' := hg.secPerClus_lt
          have hdisk := hg.diskSize_le
          have hmul : (start + 1) * g.secPerClus < 2 ^ 32 := by
            have hle := Nat.mul_le_mul (show start + 1 ≤ 2 ^ 24 by omega)
              (show g.secPerClus ≤ 255 by omega)
            omega
          rw [u32_of_lt hmul] at hmore
          have hge : start + 1 ≤ (start + 1) * g.secPerClus := Nat.le_mul_of_pos_right _ hspc
          obtain ⟨hd, hrest⟩ := findFreeCluster_spec hg hlooked.fresh (by omega) hfind
          rw [hlooked.disk, hlooked.taken] at hrest
          refine ⟨hd.trans hlooked.disk, hrest.imp id ?_⟩
          rintro ⟨f, hf, htaken, hle, hlt, hfree⟩
          exact ⟨f, hf, htaken, by omega, hlt, hfree⟩

/-! ## Linking a cluster -/

/-- The FAT entry of `c` is now `v`; the clusters `new` were taken and are zero. -/
structure Relinked (g : Bpb) (s s' : State) (c v : ℕ) (new : List ℕ) : Prop where
  entry : ∀ x, x < clusterLimit g →
    fatEntry g s'.disk x = if x = c then v else fatEntry g s.disk x
  bytes : ∀ x j, ValidCluster g x → j < g.clusterSize →
    clusterByte g s'.disk x j = if x ∈ new then 0 else clusterByte g s.disk x j
  taken : s'.taken = new.reverse ++ s.taken

theorem Relinked.refl (g : Bpb) (s : State) (c : ℕ) :
    Relinked g s s c (fatEntry g s.disk c) [] where
  entry x _ := by
    split
    · rename_i heq
      rw [heq]
    · rfl
  bytes x j _ _ := by rw [if_neg List.not_mem_nil]
  taken := rfl

/-- An end-of-chain mark is stored, and what it clears is outside the FAT entries
and the clusters. -/
theorem relinked_mark (hg : Geometry g) (hfat : 3 * g.secPerClus ≤ g.fatSz32)
    (hc : ValidCluster g c) :
    Relinked g s (fatClearCluster g (fatWriteFatEntry g s c 0x0FFFFFFF) 0x0FFFFFFF) c
      0x0FFFFFFF [] where
  entry x hx := by
    rw [fatEntry_clearMark hg hfat hx, fatEntry_fatWriteFatEntry hg hc.lt_limit hx (by decide)]
  bytes x j hx _ := by
    rw [clusterByte_clearMark hg hfat hx, clusterByte_fatWriteFatEntry hg hc.lt_limit hx,
      if_neg List.not_mem_nil]
  taken := by rw [fatClearCluster_taken, fatWriteFatEntry_taken]; rfl

/-- A free cluster is linked and cleared. -/
theorem relinked_link (hg : Geometry g) {s₁ : State} {f : ℕ} (hc : ValidCluster g c)
    (hf : ValidCluster g f) (hdisk : s₁.disk = s.disk) (htaken : s₁.taken = f :: s.taken) :
    Relinked g s (fatClearCluster g (fatWriteFatEntry g s₁ c f) f) c f [f] where
  entry x hx := by
    have hlt := hf.lt hg
    rw [fatEntry_fatClearCluster hg hf hx,
      fatEntry_fatWriteFatEntry hg hc.lt_limit hx (by omega), hdisk]
  bytes x j hx hj := by
    rw [clusterByte_fatClearCluster hg hf hx hj, clusterByte_fatWriteFatEntry hg hc.lt_limit hx,
      hdisk]
    simp only [List.mem_singleton]
  taken := by rw [fatClearCluster_taken, fatWriteFatEntry_taken, htaken]; rfl

/-- An entry that ends no chain is left as it is. -/
theorem advanceChain_pass {offset v : ℕ} (h : ¬ OpenEnd v) :
    advanceChain g p n offset c v s = some (some v, s) := by
  unfold OpenEnd EndMark at h
  rw [advanceChain, if_neg h]

/-- Before the end of the chain nothing happens. -/
theorem advanceChain_link (hg : Geometry g) (hnext : ValidCluster g (fatEntry g s.disk c)) :
    advanceChain g p n a c (fatEntry g s.disk c) s = some (some (fatEntry g s.disk c), s) := by
  obtain ⟨h0, -, -, -⟩ := hnext.not_special hg
  exact advanceChain_pass (not_or.mpr ⟨h0, hnext.not_endMark hg⟩)

/-- Where the data ends the chain ends. -/
theorem advanceChain_fits (hg : Geometry g) (hfat : 3 * g.secPerClus ≤ g.fatSz32)
    (hc : ValidCluster g c) (hpn : p + n < 2 ^ 32) (hlt : a + g.clusterSize < 2 ^ 32)
    (hopen : OpenEnd (fatEntry g s.disk c)) (hfits : p + n ≤ a + g.clusterSize) :
    ∃ s', advanceChain g p n a c (fatEntry g s.disk c) s = some (some 0x0FFFFFFF, s') ∧
      Relinked g s s' c 0x0FFFFFFF [] := by
  unfold OpenEnd EndMark at hopen
  unfold advanceChain
  rw [if_pos hopen, u32_of_lt hpn, u32_of_lt hlt, if_pos hfits]
  split
  · rename_i hdone
    have hrefl := Relinked.refl g s c
    rw [hdone] at hrefl
    exact ⟨s, rfl, hrefl⟩
  · exact ⟨_, rfl, relinked_mark hg hfat hc⟩

/-- Where the data goes on a free cluster is linked, unless the disk is full. -/
theorem advanceChain_extend (hg : Geometry g) (hc : ValidCluster g c) (hpn : p + n < 2 ^ 32)
    (hlt : a + g.clusterSize < 2 ^ 32) (hopen : OpenEnd (fatEntry g s.disk c))
    (hover : a + g.clusterSize < p + n) {r : Option ℕ × State}
    (h : advanceChain g p n a c (fatEntry g s.disk c) s = some r)
    (hvalid : ∀ t ∈ r.2.taken, ValidCluster g t) :
    r.1 = none ∨ ∃ f, r.1 = some f ∧ ValidCluster g f ∧ c < f ∧ fatEntry g s.disk f = 0 ∧
      Relinked g s r.2 c f [f] := by
  have hclt := hc.lt_limit
  have hlimit := hg.clusterLimit_lt
  unfold OpenEnd EndMark at hopen
  unfold advanceChain at h
  rw [if_pos hopen, u32_of_lt hpn, u32_of_lt hlt,
    if_neg (not_le.mpr hover), u32_of_lt (show c + 1 < 2 ^ 32 by omega)] at h
  obtain ⟨⟨free, s₁⟩, hfind, hrest⟩ := Option.bind_eq_some_iff.mp h
  have hspec := findFreeCluster_spec hg (.inl rfl) (by omega) hfind
  obtain ⟨hdisk, ⟨hnone, -⟩ | ⟨f, hf, htaken, hle, -, hfree⟩⟩ := hspec
  · dsimp only at hnone hrest
    rw [hnone] at hrest
    rw [← Option.some_inj.mp hrest]
    exact .inl rfl
  · dsimp only at hf htaken hdisk hrest
    rw [hf] at hrest
    rw [← Option.some_inj.mp hrest] at hvalid ⊢
    dsimp only at hvalid ⊢
    rw [fatClearCluster_taken, fatWriteFatEntry_taken, htaken] at hvalid
    have hfvalid := hvalid f List.mem_cons_self
    exact .inr ⟨f, rfl, hfvalid, by omega, hfree, relinked_link hg hc hfvalid hdisk htaken⟩

/-! ## One round -/

/-- What is known of the chain before a round: it begins at `c`, goes on along
`rest`, and the disk has room for it. -/
structure Growing (g : Bpb) (s : State) (c : ℕ) (rest : List ℕ) : Prop where
  chain : LinkedChain (fatEntry g s.disk) OpenEnd c rest
  valid : ∀ x ∈ rest, ValidCluster g x

/-- The state after a round that leads from `c` to `v`. -/
structure Round (g : Bpb) (data : ℕ → UInt8) (p n a : ℕ) (s s' : State) (c v : ℕ)
    (new : List ℕ) : Prop where
  entry : ∀ x, x < clusterLimit g →
    fatEntry g s'.disk x = if x = c then v else fatEntry g s.disk x
  bytes : ∀ x j, ValidCluster g x → j < g.clusterSize →
    clusterByte g s'.disk x j =
      if x = c ∧ p ≤ a + j ∧ a + j < p + n then data (a + j - p)
      else if x ∈ new then 0 else clusterByte g s.disk x j
  taken : s'.taken = new.reverse ++ s.taken

theorem Relinked.round (hg : Geometry g) (data : ℕ → UInt8) (p : ℕ) {s₁ : State} {v : ℕ}
    (h : Relinked g s s₁ c v new)
    (hc : ValidCluster g c) (hlt : a + g.clusterSize < 2 ^ 32) (hn : n < 2 ^ 32) :
    Round g data p n a s (roundWrite g data p n a c s₁) c v new where
  entry x hx := by rw [roundWrite_fat hg hc hlt hn hx, h.entry x hx]
  bytes x j hx hj := by
    by_cases hxc : x = c
    · subst hxc
      rw [roundWrite_self hg hc hlt hn hj, h.bytes x j hx hj]
      simp only [true_and]
    · rw [if_neg (fun hall => hxc hall.1), roundWrite_other hg hc hlt hn hx hxc hj, h.bytes x j hx hj]
  taken := by rw [roundWrite_taken, h.taken]

/-! ## The whole loop -/

/-- What the loop leaves behind from a cluster `c` on, with `a` bytes of the chain
before it: the chain of `rest` was extended by the clusters of `new`, no more
than needed, and holds the data. -/
structure Written (g : Bpb) (data : ℕ → UInt8) (p n a : ℕ) (s s' : State) (c : ℕ)
    (rest new : List ℕ) : Prop where
  chain : FileChain g s'.disk c (rest ++ new)
  fresh : ∀ x ∈ new, fatEntry g s.disk x = 0
  entry : ∀ x, x < clusterLimit g → x ∉ new → x ∉ rest.getLast? →
    fatEntry g s'.disk x = fatEntry g s.disk x
  other : ∀ x j, ValidCluster g x → x ∉ rest → x ∉ new → j < g.clusterSize →
    clusterByte g s'.disk x j = clusterByte g s.disk x j
  bytes : ∀ j, j < (rest ++ new).length * g.clusterSize →
    chainByte g s'.disk (rest ++ new) j =
      if p ≤ a + j ∧ a + j < p + n then data (a + j - p)
      else if j < rest.length * g.clusterSize then chainByte g s.disk rest j else 0
  enough : p + n ≤ a + (rest ++ new).length * g.clusterSize
  needed : new ≠ [] → a + ((rest ++ new).length - 1) * g.clusterSize < p + n
  taken : s'.taken = new.reverse ++ s.taken

/-- The chain ends in the current cluster. -/
theorem Round.written_last (hc : ValidCluster g c)
    (h : Round g data p n a s s' c 0x0FFFFFFF []) (hfits : p + n ≤ a + g.clusterSize) :
    Written g data p n a s s' c [c] [] where
  chain := by
    refine ⟨.last ?_, ?_⟩
    · rw [h.entry c hc.lt_limit, if_pos rfl]
      exact ⟨by decide, by decide⟩
    · intro x hx
      rwa [List.mem_singleton.mp hx]
  fresh _ hx := absurd hx List.not_mem_nil
  entry x hx _ hlast := by
    rw [h.entry x hx, if_neg]
    rintro rfl
    exact hlast rfl
  other x j hx hrest _ hj := by
    rw [h.bytes x j hx hj, if_neg (fun hall => hrest (List.mem_singleton.mpr hall.1)),
      if_neg List.not_mem_nil]
  bytes j hj := by
    rw [List.append_nil, List.length_singleton, Nat.one_mul] at hj
    rw [List.append_nil, chainByte_head hj, chainByte_head hj, h.bytes c j hc hj,
      if_neg List.not_mem_nil, List.length_singleton, Nat.one_mul, if_pos hj]
    simp only [true_and]
  enough := by
    rw [List.append_nil, List.length_singleton, Nat.one_mul]
    exact hfits
  needed hne := absurd rfl hne
  taken := h.taken

/-- The bytes of a chain depend on its clusters only. -/
theorem chainByte_congr (hpos : 0 < g.clusterSize) {disk disk' : ℕ → UInt8} {l : List ℕ} {j : ℕ}
    (h : ∀ x ∈ l, ∀ k, k < g.clusterSize → clusterByte g disk x k = clusterByte g disk' x k)
    (hj : j < l.length * g.clusterSize) : chainByte g disk l j = chainByte g disk' l j := by
  have hdiv : j / g.clusterSize < l.length := (Nat.div_lt_iff_lt_mul hpos).mpr hj
  rw [chainByte, chainByte, List.getD_eq_getElem _ _ hdiv]
  exact h _ (List.getElem_mem hdiv) _ (Nat.mod_lt _ hpos)

/-- The chain goes on: what the later rounds did is seen from `c`. -/
theorem Round.written_link (hg : Geometry g) {s₁ : State} {v : ℕ} {rest' : List ℕ}
    (hr : Round g data p n a s s₁ c v []) (hc : ValidCluster g c) (hv : ValidCluster g v)
    (hcv : fatEntry g s.disk c = v) (hrest : Growing g s v rest') (hmem : c ∉ rest')
    (h : Written g data p n (a + g.clusterSize) s₁ s' v rest' new) :
    Written g data p n a s s' c (c :: rest') new := by
  have hpos := hg.clusterSize_pos
  have hentry : ∀ x, x < clusterLimit g → fatEntry g s₁.disk x = fatEntry g s.disk x := by
    intro x hx
    rw [hr.entry x hx]
    split
    · rename_i heq
      rw [heq, hcv]
    · rfl
  have hfresh : ∀ x ∈ new, fatEntry g s.disk x = 0 := by
    intro x hx
    rw [← hentry x (h.chain.valid x (List.mem_append_right _ hx)).lt_limit]
    exact h.fresh x hx
  have hcnew : c ∉ new := by
    intro hx
    have hzero := hfresh c hx
    have htwo := hv.ge_two
    omega
  have hclast : c ∉ rest'.getLast? := fun hx => hmem (List.mem_of_getLast? hx)
  have hcnext : fatEntry g s'.disk c = v := by
    rw [h.entry c hc.lt_limit hcnew hclast, hentry c hc.lt_limit, hcv]
  have hcbyte : ∀ j, j < g.clusterSize → clusterByte g s'.disk c j =
      if p ≤ a + j ∧ a + j < p + n then data (a + j - p) else clusterByte g s.disk c j := by
    intro j hj
    rw [h.other c j hc hmem hcnew hj, hr.bytes c j hc hj, if_neg List.not_mem_nil]
    simp only [true_and]
  have hsame : ∀ x, ValidCluster g x → x ≠ c → ∀ j, j < g.clusterSize →
      clusterByte g s₁.disk x j = clusterByte g s.disk x j := by
    intro x hx hxc j hj
    rw [hr.bytes x j hx hj, if_neg (fun hall => hxc hall.1), if_neg List.not_mem_nil]
  have hlen := hrest.chain.length_pos
  constructor
  · refine ⟨?_, ?_⟩
    · apply LinkedChain.link
      · rw [hcnext]
        exact hv.not_endMark hg
      · rw [hcnext]
        exact h.chain.chain
    · intro x hx
      rcases List.mem_cons.mp hx with rfl | hx
      · exact hc
      · exact h.chain.valid x hx
  · exact hfresh
  · intro x hx hnew hlast
    rw [h.entry x hx hnew, hentry x hx]
    intro hin
    apply hlast
    rw [List.getLast?_cons, Option.mem_def.mp hin]
    rfl
  · intro x j hx hnot hnew hj
    obtain ⟨hxc, hxrest⟩ := not_or.mp (fun hor => hnot (List.mem_cons.mpr hor))
    rw [h.other x j hx hxrest hnew hj, hsame x hx hxc j hj]
  · intro j hj
    rw [List.cons_append, List.length_cons, Nat.succ_mul] at hj
    rw [List.cons_append, List.length_cons, Nat.succ_mul]
    by_cases hfirst : j < g.clusterSize
    · rw [chainByte_head hfirst, chainByte_head hfirst, hcbyte j hfirst]
      by_cases hin : p ≤ a + j ∧ a + j < p + n
      · rw [if_pos hin, if_pos hin]
      · rw [if_neg hin, if_neg hin, if_pos (by omega)]
    · obtain ⟨k, rfl⟩ := Nat.exists_eq_add_of_le (not_lt.mp hfirst)
      rw [chainByte_tail hpos (Nat.le_add_right _ _), chainByte_tail hpos (Nat.le_add_right _ _),
        Nat.add_sub_cancel_left, h.bytes k (by omega), Nat.add_assoc]
      congr 1
      by_cases hold : k < rest'.length * g.clusterSize
      · rw [if_pos hold, if_pos (by omega)]
        apply chainByte_congr hpos _ hold
        intro x hx i hi
        refine hsame x (hrest.valid x hx) ?_ i hi
        rintro rfl
        exact hmem hx
      · rw [if_neg hold, if_neg (by omega)]
  · have henough := h.enough
    rw [List.cons_append, List.length_cons, Nat.succ_mul]
    omega
  · intro hne
    have hneeded := h.needed hne
    rw [List.length_append] at hneeded
    rw [List.cons_append, List.length_cons, List.length_append, Nat.add_sub_cancel]
    have hwhole : (rest'.length + new.length) * g.clusterSize =
        (rest'.length + new.length - 1) * g.clusterSize + g.clusterSize := by
      rw [← Nat.succ_mul, Nat.succ_eq_add_one, Nat.sub_add_cancel (by omega)]
    omega
  · rw [h.taken, hr.taken, List.reverse_nil, List.nil_append]

/-- The chain was extended by `f`: what the later rounds did is seen from `c`. -/
theorem Round.written_extend (hg : Geometry g) {s₁ : State} {f : ℕ}
    (hr : Round g data p n a s s₁ c f [f]) (hc : ValidCluster g c) (hf : ValidCluster g f)
    (hcf : c < f) (hfree : fatEntry g s.disk f = 0) (hover : a + g.clusterSize < p + n)
    (h : Written g data p n (a + g.clusterSize) s₁ s' f [f] new) :
    Written g data p n a s s' c [c] (f :: new) := by
  have hpos := hg.clusterSize_pos
  have hentry : ∀ x, x < clusterLimit g → x ≠ c → fatEntry g s₁.disk x = fatEntry g s.disk x := by
    intro x hx hxc
    rw [hr.entry x hx, if_neg hxc]
  have hclink : fatEntry g s₁.disk c = f := by rw [hr.entry c hc.lt_limit, if_pos rfl]
  have hcnew : c ∉ new := by
    intro hx
    have hzero := h.fresh c hx
    omega
  have hclast : c ∉ [f].getLast? := by
    intro hx
    have heq : f = c := Option.mem_some_iff.mp hx
    omega
  have hcnext : fatEntry g s'.disk c = f := by
    rw [h.entry c hc.lt_limit hcnew hclast, hclink]
  have hcbyte : ∀ j, j < g.clusterSize → clusterByte g s'.disk c j =
      if p ≤ a + j ∧ a + j < p + n then data (a + j - p) else clusterByte g s.disk c j := by
    intro j hj
    have hnot : c ∉ [f] := fun hx => hclast (Option.mem_some_iff.mpr (List.mem_singleton.mp hx).symm)
    rw [h.other c j hc hnot hcnew hj, hr.bytes c j hc hj, if_neg hnot]
    simp only [true_and]
  have hchain : FileChain g s'.disk f (f :: new) := h.chain
  have hmem : ∀ x, x ∈ f :: new → ValidCluster g x := hchain.valid
  constructor
  · refine ⟨?_, ?_⟩
    · apply LinkedChain.link
      · rw [hcnext]
        exact hf.not_endMark hg
      · rw [hcnext]
        exact hchain.chain
    · intro x hx
      rcases List.mem_cons.mp hx with rfl | hx
      · exact hc
      · exact hmem x hx
  · intro x hx
    rcases List.mem_cons.mp hx with rfl | hnew
    · exact hfree
    · rw [← hentry x (hmem x hx).lt_limit (fun heq => hcnew (heq ▸ hnew))]
      exact h.fresh x hnew
  · intro x hx hnew hlast
    obtain ⟨hxf, hxnew⟩ := not_or.mp (fun hor => hnew (List.mem_cons.mpr hor))
    have hxc : x ≠ c := fun heq => hlast (Option.mem_some_iff.mpr heq.symm)
    have hxlast : x ∉ [f].getLast? := fun hin => hxf (Option.mem_some_iff.mp hin).symm
    rw [h.entry x hx hxnew hxlast, hentry x hx hxc]
  · intro x j hx hrest hnew hj
    obtain ⟨hxf, hxnew⟩ := not_or.mp (fun hor => hnew (List.mem_cons.mpr hor))
    have hxc : x ≠ c := fun heq => hrest (List.mem_singleton.mpr heq)
    have hxlist : x ∉ [f] := fun hin => hxf (List.mem_singleton.mp hin)
    rw [h.other x j hx hxlist hxnew hj, hr.bytes x j hx hj, if_neg (fun hall => hxc hall.1),
      if_neg hxlist]
  · intro j hj
    have htail := h.bytes
    rw [List.singleton_append, List.length_singleton, Nat.one_mul] at htail
    rw [List.singleton_append, List.length_cons, Nat.succ_mul] at hj
    rw [List.singleton_append, List.length_singleton, Nat.one_mul]
    by_cases hfirst : j < g.clusterSize
    · rw [chainByte_head hfirst, chainByte_head hfirst, hcbyte j hfirst, if_pos hfirst]
    · obtain ⟨k, rfl⟩ := Nat.exists_eq_add_of_le (not_lt.mp hfirst)
      rw [chainByte_tail hpos (Nat.le_add_right _ _), Nat.add_sub_cancel_left, htail k (by omega),
        Nat.add_assoc, if_neg hfirst]
      congr 1
      by_cases hcleared : k < g.clusterSize
      · -- The cluster was cleared when it was linked.
        rw [if_pos hcleared, chainByte_head hcleared, hr.bytes f k hf hcleared,
          if_neg (fun hall => absurd hall.1 hcf.ne'), if_pos (List.mem_singleton.mpr rfl)]
      · rw [if_neg hcleared]
  · have henough := h.enough
    rw [List.singleton_append] at henough
    rw [List.singleton_append, List.length_cons, Nat.succ_mul]
    omega
  · intro _
    rw [List.singleton_append, List.length_cons, List.length_cons, Nat.add_sub_cancel, Nat.succ_mul]
    by_cases hnil : new = []
    · rw [hnil, List.length_nil]
      omega
    · have hneeded := h.needed hnil
      rw [List.singleton_append, List.length_cons, Nat.add_sub_cancel] at hneeded
      omega
  · simp [h.taken, hr.taken]

/-- The clusters taken by a search are kept. -/
theorem findFreeCluster_taken :
    ∀ {rounds start : ℕ} {s : State} {r : Option ℕ × State},
      findFreeCluster g rounds start s = some r → ∀ t ∈ s.taken, t ∈ r.2.taken
  | rounds + 1, start, s, r, hfind, t, ht => by
      have hkeep : (fatReadFatEntry g s start true).2.taken = s.taken := by
        rw [fatReadFatEntry_eq, loadSector]
        split <;> rfl
      unfold findFreeCluster at hfind
      dsimp only at hfind
      split at hfind
      · rw [← Option.some_inj.mp hfind]
        dsimp only
        rw [hkeep]
        exact List.mem_cons_of_mem _ ht
      · split at hfind
        · rw [← Option.some_inj.mp hfind]
          dsimp only
          rwa [hkeep]
        · apply findFreeCluster_taken hfind
          rwa [hkeep]

theorem advanceChain_taken {v : ℕ} {r : Option ℕ × State} (h : advanceChain g p n a c v s = some r) :
    ∀ t ∈ s.taken, t ∈ r.2.taken := by
  intro t ht
  unfold advanceChain at h
  split at h
  · split at h
    · split at h
      · rwa [← Option.some_inj.mp h]
      · rw [← Option.some_inj.mp h]
        dsimp only
        rwa [fatClearCluster_taken, fatWriteFatEntry_taken]
    · obtain ⟨⟨free, s₁⟩, hfind, hrest⟩ := Option.bind_eq_some_iff.mp h
      have hmem := findFreeCluster_taken hfind t ht
      cases free with
      | none => rwa [← Option.some_inj.mp hrest]
      | some f =>
          rw [← Option.some_inj.mp hrest]
          dsimp only
          rwa [fatClearCluster_taken, fatWriteFatEntry_taken]
  · rwa [← Option.some_inj.mp h]

/-- The state after a round has stored its data, `offset` bytes of the chain being
behind its cluster. -/
def storePart (g : Bpb) (data : ℕ → UInt8) (p n offset c total : ℕ) (s : State) : State :=
  if offset > p then
    s.write (u32 (g.clusterOffset c + (transferPart g p n offset g.clusterSize total).1))
      (readBytes data total (transferPart g p n offset g.clusterSize total).2)
  else s

/-- The bytes counted after a round. -/
def partTotal (g : Bpb) (p n offset total : ℕ) : ℕ :=
  if offset > p then u32 (total + (transferPart g p n offset g.clusterSize total).2) else total

/-- One round of the loop, on a cluster that is not bad. -/
theorem fwriteLoop_round {file : FatFile} {rounds offset total : ℕ} (htwo : 2 ≤ c)
    (hbad : fatEntry g s.disk c ≠ badCluster) :
    fwriteLoop g data n file (rounds + 1) c offset total s =
      (advanceChain g file.cursor n offset c (fatEntry g s.disk c) s).bind fun r =>
        match r.1 with
        | none => some (none, r.2)
        | some v =>
            if isLast v then
              some (some (partTotal g file.cursor n (u32 (offset + g.clusterSize)) total),
                storePart g data file.cursor n (u32 (offset + g.clusterSize)) c total r.2)
            else
              fwriteLoop g data n file rounds (v % 2 ^ 28) (u32 (offset + g.clusterSize))
                (partTotal g file.cursor n (u32 (offset + g.clusterSize)) total)
                (storePart g data file.cursor n (u32 (offset + g.clusterSize)) c total r.2) := by
  have hread : fatReadFatEntry g s c false = (fatEntry g s.disk c, s) := rfl
  rw [fwriteLoop, if_neg (not_lt.mpr htwo), hread]
  dsimp only
  rw [if_neg hbad]
  rfl

/-- A round of the loop, on a data cluster of the chain. -/
theorem fwriteLoop_succ (hg : Geometry g) {file : FatFile} {rounds : ℕ} (hc : ValidCluster g c)
    (hlt : a + g.clusterSize < 2 ^ 32) (hn : n < 2 ^ 32)
    (hentry : fatEntry g s.disk c ≠ badCluster) :
    fwriteLoop g data n file (rounds + 1) c a (min n (a - file.cursor)) s =
      (advanceChain g file.cursor n a c (fatEntry g s.disk c) s).bind fun r =>
        match r.1 with
        | none => some (none, r.2)
        | some v =>
            if isLast v then
              some (some (min n (a + g.clusterSize - file.cursor)),
                roundWrite g data file.cursor n a c r.2)
            else
              fwriteLoop g data n file rounds (v % 2 ^ 28) (a + g.clusterSize)
                (min n (a + g.clusterSize - file.cursor))
                (roundWrite g data file.cursor n a c r.2) := by
  have htotal : partTotal g file.cursor n (a + g.clusterSize) (min n (a - file.cursor)) =
      min n (a + g.clusterSize - file.cursor) :=
    transferTotal_eq hg.clusterSize_lt le_rfl
      (Nat.lt_or_ge file.cursor (a + g.clusterSize) |>.imp Nat.le_of_lt id) hlt hn
  rw [fwriteLoop_round hc.ge_two hentry, u32_of_lt hlt, htotal]
  rfl

theorem fwriteLoop_taken {file : FatFile} :
    ∀ {rounds c a total : ℕ} {s : State} {r : Option ℕ × State},
      fwriteLoop g data n file rounds c a total s = some r → ∀ t ∈ s.taken, t ∈ r.2.taken
  | rounds + 1, c, a, total, s, r, h, t, ht => by
      rw [fwriteLoop] at h
      split at h
      · rwa [← Option.some_inj.mp h]
      · have hread : fatReadFatEntry g s c false = (fatEntry g s.disk c, s) := rfl
        rw [hread] at h
        dsimp only at h
        split at h
        · rwa [← Option.some_inj.mp h]
        · obtain ⟨⟨next, s₁⟩, hadvance, hrest⟩ := Option.bind_eq_some_iff.mp h
          have hmem := advanceChain_taken hadvance t ht
          cases next with
          | none => rwa [← Option.some_inj.mp hrest]
          | some v =>
              dsimp only at hrest
              split at hrest
              · rw [← Option.some_inj.mp hrest]
                dsimp only
                split
                · rwa [State.write_taken]
                · exact hmem
              · apply fwriteLoop_taken hrest
                split
                · rwa [State.write_taken]
                · exact hmem

theorem Growing.cases (h : Growing g s c rest) :
    (rest = [c] ∧ OpenEnd (fatEntry g s.disk c)) ∨
      ∃ rest', rest = c :: rest' ∧ c ∉ rest' ∧ ValidCluster g (fatEntry g s.disk c) ∧
        Growing g s (fatEntry g s.disk c) rest' := by
  obtain ⟨hchain, hvalid⟩ := h
  have hnodup := hchain.nodup
  cases hchain with
  | last hstop => exact .inl ⟨rfl, hstop⟩
  | link hgo hrest =>
      have hvalid' := fun x hx => hvalid x (List.mem_cons_of_mem _ hx)
      exact .inr ⟨_, rfl, (List.nodup_cons.mp hnodup).1, hvalid' _ hrest.head_mem, hrest, hvalid'⟩

/-- Whatever changed elsewhere in the FAT, the chain may still grow. -/
theorem Growing.congr (h : Growing g s c rest) (s' : State)
    (hentry : ∀ x ∈ rest, fatEntry g s'.disk x = fatEntry g s.disk x) : Growing g s' c rest :=
  ⟨h.chain.congr hentry, h.valid⟩

theorem Growing.entry_cases (h : Growing g s c rest) :
    ValidCluster g (fatEntry g s.disk c) ∨ OpenEnd (fatEntry g s.disk c) := by
  rcases h.cases with ⟨-, hopen⟩ | ⟨rest', -, -, hnext, -⟩
  · exact .inr hopen
  · exact .inl hnext

theorem Growing.not_bad (hg : Geometry g) (h : Growing g s c rest) :
    fatEntry g s.disk c ≠ badCluster := by
  rcases h.entry_cases with hnext | hzero | hmark
  · exact (hnext.not_special hg).2.1
  · rw [hzero]
    decide
  · exact hmark.not_special.2.1

/-- The clusters before the last one do not end the loop. -/
theorem ValidCluster.not_isLast (hg : Geometry g) (hc : ValidCluster g c) : ¬ isLast c = true := by
  rw [(hc.not_special hg).2.2.1]
  exact Bool.false_ne_true

/-- The loop writes all the data along the chain, which it extends as far as needed,
or it finds no free cluster. -/
theorem fwriteLoop_spec (hg : Geometry g) (hfat : 3 * g.secPerClus ≤ g.fatSz32) (data : ℕ → UInt8)
    {file : FatFile} (hpn : file.cursor + n < 2 ^ 32) :
    ∀ {rounds c a : ℕ} {rest : List ℕ} {s : State} {r : Option ℕ × State}, Growing g s c rest →
      a + rest.length * g.clusterSize < 2 ^ 32 →
        (file.cursor + n ≤ a + rest.length * g.clusterSize ∨
          file.cursor + n + 2 ^ 17 ≤ 2 ^ 32 ∧ ∀ t ∈ r.2.taken, ValidCluster g t) →
          fwriteLoop g data n file rounds c a (min n (a - file.cursor)) s = some r →
            (r.1 = none ∧ a + rest.length * g.clusterSize < file.cursor + n) ∨
              (r.1 = some n ∧ ∃ new, Written g data file.cursor n a s r.2 c rest new)
  | rounds + 1, c, a, rest, s, r, h, hlt, hend, hloop => by
      have hC := hg.clusterSize_lt
      have hc := h.valid c h.chain.head_mem
      have hone : a + g.clusterSize ≤ a + rest.length * g.clusterSize :=
        Nat.add_le_add_left (Nat.le_mul_of_pos_left _ h.chain.length_pos) a
      have hlt' : a + g.clusterSize < 2 ^ 32 := by omega
      have hn : n < 2 ^ 32 := by omega
      rw [fwriteLoop_succ hg hc hlt' hn (h.not_bad hg)] at hloop
      obtain ⟨⟨next, s₁⟩, hadvance, hrest⟩ := Option.bind_eq_some_iff.mp hloop
      rcases h.cases with ⟨rfl, hopen⟩ | ⟨rest', rfl, hmem, hnext, hgrow⟩
      · rw [List.length_singleton, Nat.one_mul] at hend ⊢
        by_cases hfits : file.cursor + n ≤ a + g.clusterSize
        · obtain ⟨s₂, heq, hrel⟩ := advanceChain_fits hg hfat hc hpn hlt' hopen hfits
          obtain ⟨rfl, rfl⟩ := Prod.mk.inj (Option.some_inj.mp (hadvance.symm.trans heq))
          have hlast : isLast 0x0FFFFFFF = true := isLast_iff.mpr (.inl ⟨by decide, by decide⟩)
          have htotal : min n (a + g.clusterSize - file.cursor) = n := by omega
          dsimp only at hrest
          rw [if_pos hlast, htotal] at hrest
          rw [← Option.some_inj.mp hrest]
          exact .inr ⟨rfl, [], (hrel.round hg data _ hc hlt' hn).written_last hc hfits⟩
        · have hover := not_le.mp hfits
          obtain ⟨hroom, hvalid⟩ := hend.resolve_left hfits
          -- The clusters taken in this round are among those taken in the end.
          have hvalid₁ : ∀ t ∈ s₁.taken, ValidCluster g t := by
            intro t ht
            apply hvalid
            cases next with
            | none => rwa [← Option.some_inj.mp hrest]
            | some v =>
                dsimp only at hrest
                split at hrest
                · rw [← Option.some_inj.mp hrest]
                  dsimp only
                  rwa [roundWrite_taken]
                · apply fwriteLoop_taken hrest
                  rwa [roundWrite_taken]
          rcases advanceChain_extend hg hc hpn hlt' hopen hover hadvance hvalid₁ with
            hnone | ⟨f, hf, hfvalid, hcf, hfree, hrel⟩
          · dsimp only at hnone hrest
            rw [hnone] at hrest
            rw [← Option.some_inj.mp hrest]
            exact .inl ⟨rfl, hover⟩
          · dsimp only at hf hrest
            rw [hf] at hrest
            dsimp only at hrest
            rw [if_neg (hfvalid.not_isLast hg), (hfvalid.not_special hg).2.2.2] at hrest
            have hround := hrel.round hg data file.cursor hc hlt' hn
            have hgrow : Growing g (roundWrite g data file.cursor n a c s₁) f [f] := by
              refine ⟨.last ?_, ?_⟩
              · rw [hround.entry f hfvalid.lt_limit, if_neg hcf.ne', hfree]
                exact .inl rfl
              · intro x hx
                rwa [List.mem_singleton.mp hx]
            rcases fwriteLoop_spec hg hfat data hpn hgrow
              (by rw [List.length_singleton]; omega) (.inr ⟨hroom, hvalid⟩) hrest with
              ⟨hnone, -⟩ | ⟨hsome, new, hwritten⟩
            · exact .inl ⟨hnone, hover⟩
            · exact .inr ⟨hsome, f :: new,
                hround.written_extend hg hc hfvalid hcf hfree hover hwritten⟩
      · rw [advanceChain_link hg hnext] at hadvance
        obtain ⟨rfl, rfl⟩ := Prod.mk.inj (Option.some_inj.mp hadvance)
        dsimp only at hrest
        rw [if_neg (hnext.not_isLast hg), (hnext.not_special hg).2.2.2] at hrest
        have hround := (Relinked.refl g s c).round hg data file.cursor hc hlt' hn
        have hgrow' := hgrow.congr (roundWrite g data file.cursor n a c s) fun x hx =>
          roundWrite_fat hg hc hlt' hn (hgrow.valid x hx).lt_limit
        rw [List.length_cons, Nat.succ_mul] at hlt hend ⊢
        rcases fwriteLoop_spec hg hfat data hpn hgrow' (by omega) (hend.imp (by omega) id) hrest with
          ⟨hnone, hless⟩ | ⟨hsome, new, hwritten⟩
        · exact .inl ⟨hnone, by omega⟩
        · exact .inr ⟨hsome, new, hround.written_link hg hc hnext rfl hgrow hmem hwritten⟩

/-- When the chain has room for the data the loop ends and takes no cluster. -/
theorem fwriteLoop_fits (hg : Geometry g) (hfat : 3 * g.secPerClus ≤ g.fatSz32) (data : ℕ → UInt8)
    {file : FatFile} (hpn : file.cursor + n < 2 ^ 32) :
    ∀ {rounds c a : ℕ} {rest : List ℕ} {s : State}, Growing g s c rest → rest.length ≤ rounds →
      a + rest.length * g.clusterSize < 2 ^ 32 →
        file.cursor + n ≤ a + rest.length * g.clusterSize →
          ∃ r, fwriteLoop g data n file rounds c a (min n (a - file.cursor)) s = some r ∧
            r.2.taken = s.taken
  | 0, _, _, _, _, h, hrounds, _, _ => by
      have hpos := h.chain.length_pos
      omega
  | rounds + 1, c, a, rest, s, h, hrounds, hlt, hroom => by
      have hc := h.valid c h.chain.head_mem
      have hone : a + g.clusterSize ≤ a + rest.length * g.clusterSize :=
        Nat.add_le_add_left (Nat.le_mul_of_pos_left _ h.chain.length_pos) a
      have hlt' : a + g.clusterSize < 2 ^ 32 := by omega
      have hn : n < 2 ^ 32 := by omega
      rw [fwriteLoop_succ hg hc hlt' hn (h.not_bad hg)]
      rcases h.cases with ⟨rfl, hopen⟩ | ⟨rest', rfl, hmem, hnext, hgrow⟩
      · rw [List.length_singleton, Nat.one_mul] at hroom
        obtain ⟨s₁, heq, hrel⟩ := advanceChain_fits hg hfat hc hpn hlt' hopen hroom
        have hlast : isLast 0x0FFFFFFF = true := isLast_iff.mpr (.inl ⟨by decide, by decide⟩)
        rw [heq, Option.bind_some]
        dsimp only
        rw [if_pos hlast]
        refine ⟨_, rfl, ?_⟩
        dsimp only
        rw [roundWrite_taken, hrel.taken]
        rfl
      · rw [advanceChain_link hg hnext, Option.bind_some]
        dsimp only
        rw [if_neg (hnext.not_isLast hg), (hnext.not_special hg).2.2.2]
        have hgrow' := hgrow.congr (roundWrite g data file.cursor n a c s) fun x hx =>
          roundWrite_fat hg hc hlt' hn (hgrow.valid x hx).lt_limit
        rw [List.length_cons, Nat.succ_mul] at hlt hroom
        obtain ⟨r, hloop, htaken⟩ := fwriteLoop_fits hg hfat data hpn (a := a + g.clusterSize)
          hgrow' (Nat.le_of_succ_le_succ hrounds) (by omega) (by omega)
        exact ⟨r, hloop, by rw [htaken, roundWrite_taken]⟩

end Neos.Fat
