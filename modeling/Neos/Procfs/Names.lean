import Neos.Procfs.Model
import Neos.Vfs.Trace
import Neos.Vfs.Descent

/-!
# Names in the process file system

A process is named by the decimal digits of its id, and reading the digits gives
the id back.  Opening names one after the other drives the node in the state
block down; `..` drives it up again, but not from every node.
-/

namespace Neos.Procfs

open Vfs Scheduler

/-! ## Numbers and their digits -/

theorem digitValue_digit {value : ℕ} (h : value < 10) : digitValue (digit value) = some value := by
  have hall : ∀ value < 10, digitValue (digit value) = some value := by decide
  exact hall value h

theorem digit_clean {value : ℕ} (h : value < 10) : digit value ≠ slash ∧ digit value ≠ 0 := by
  have hall : ∀ value < 10, digit value ≠ slash ∧ digit value ≠ 0 := by decide
  exact hall value h

/-- Reading the digits of a number goes on with the number. -/
theorem uintToStrLoop_spec :
    ∀ (room num : ℕ) (buffer : CString), num < 10 ^ room → num < 2 ^ 32 →
      (uintToStrLoop 10 room num buffer).1 = 0 ∧
        strToUintLoop 10 (uintToStrLoop 10 room num buffer).2 0 = strToUintLoop 10 buffer num
  | 0, num, buffer, h, _ => by
      have hzero : num = 0 := by simpa using h
      subst hzero
      exact ⟨rfl, rfl⟩
  | room + 1, num, buffer, h, hword => by
      rw [uintToStrLoop]
      by_cases hpos : num > 0
      · rw [if_pos hpos]
        have hdigit : num % 10 < 10 := Nat.mod_lt _ (by decide)
        obtain ⟨hdone, hread⟩ := uintToStrLoop_spec room (num / 10) (digit (num % 10) :: buffer)
          (by rw [pow_succ] at h; omega) (by omega)
        refine ⟨hdone, ?_⟩
        have hsum : (num / 10 * 10 + num % 10) % 2 ^ 32 = num := by omega
        rw [hread, strToUintLoop, digitValue_digit hdigit]
        dsimp only
        rw [if_neg (by omega), hsum]
      · have hzero : num = 0 := by omega
        subst hzero
        exact ⟨rfl, rfl⟩

/-- The name of a process. -/
def pidName (pid : ℤ) : CString := uintToStr (toWord pid) 16 10

theorem strToUint_uintToStr {n : ℕ} (h : n < 2 ^ 32) : strToUint (uintToStr n 16 10) 10 = n := by
  rw [uintToStr]
  split
  · next hzero =>
      subst hzero
      decide
  · obtain ⟨hdone, hread⟩ := uintToStrLoop_spec 15 n [] (h.trans (by decide)) h
    dsimp only
    rw [if_neg (by rw [hdone]; decide), strToUint, hread]
    rfl

theorem toWord_lt (z : ℤ) : toWord z < 2 ^ 32 := by
  unfold toWord
  omega

/-- A process name is read as the id. -/
theorem strToUint_pidName (pid : ℤ) : strToUint (pidName pid) 10 = toWord pid :=
  strToUint_uintToStr (toWord_lt pid)

theorem strToUintLoop_lt (base : ℕ) :
    ∀ (str : CString) (result : ℕ), result < 2 ^ 32 → strToUintLoop base str result < 2 ^ 32
  | [], _, h => h
  | c :: rest, result, h => by
      rw [strToUintLoop]
      split
      · exact h
      · split
        · exact h
        · exact strToUintLoop_lt base rest _ (Nat.mod_lt _ (by decide))

theorem uintToStrLoop_digits :
    ∀ (room num : ℕ) (buffer : CString),
      (uintToStrLoop 10 room num buffer).2.length ≤ room + buffer.length ∧
        ∀ c ∈ (uintToStrLoop 10 room num buffer).2, c ∈ buffer ∨ ∃ value < 10, c = digit value
  | 0, _, buffer => ⟨by rw [Nat.zero_add]; exact le_rfl, fun _ hc => Or.inl hc⟩
  | room + 1, num, buffer => by
      rw [uintToStrLoop]
      split
      · obtain ⟨hlength, hdigits⟩ :=
          uintToStrLoop_digits room (num / 10) (digit (num % 10) :: buffer)
        refine ⟨by rw [List.length_cons] at hlength; omega, fun c hc => ?_⟩
        rcases hdigits c hc with hbuffer | hdigit
        · rcases List.mem_cons.mp hbuffer with rfl | hbuffer
          · exact Or.inr ⟨num % 10, Nat.mod_lt _ (by decide), rfl⟩
          · exact Or.inl hbuffer
        · exact Or.inr hdigit
      · exact ⟨Nat.le_add_left _ _, fun _ hc => Or.inl hc⟩

theorem uintToStr_digits (num : ℕ) :
    (∀ c ∈ uintToStr num 16 10, ∃ value < 10, c = digit value) ∧
      (uintToStr num 16 10).length ≤ 15 := by
  obtain ⟨hlength, hdigits⟩ := uintToStrLoop_digits 15 num []
  rw [uintToStr]
  split
  · refine ⟨fun c hc => ⟨0, by decide, List.mem_singleton.mp hc⟩, by decide⟩
  · dsimp only
    split
    · exact ⟨fun c hc => absurd hc List.not_mem_nil, Nat.zero_le _⟩
    · refine ⟨fun c hc => (hdigits c hc).resolve_left List.not_mem_nil, hlength⟩

theorem pidName_digits (pid : ℤ) :
    (∀ c ∈ pidName pid, ∃ value < 10, c = digit value) ∧ (pidName pid).length ≤ 15 :=
  uintToStr_digits (toWord pid)

/-- A process name can stand in a path. -/
theorem pidName_clean (pid : ℤ) : Clean (pidName pid) ∧ (pidName pid).length < fileMaxName - 1 := by
  obtain ⟨hdigits, hlength⟩ := pidName_digits pid
  refine ⟨⟨fun hc => ?_, fun hc => ?_⟩, hlength.trans_lt (by decide)⟩
  · obtain ⟨value, hvalue, heq⟩ := hdigits _ hc
    exact (digit_clean hvalue).1 heq.symm
  · obtain ⟨value, hvalue, heq⟩ := hdigits _ hc
    exact (digit_clean hvalue).2 heq.symm

/-- A name with another character is not that of a process. -/
theorem pidName_ne {pid : ℤ} {name : CString} {c : UInt8} (hc : c ∈ name)
    (hother : ∀ value < 10, c ≠ digit value) : pidName pid ≠ name := by
  rintro rfl
  obtain ⟨value, hvalue, heq⟩ := (pidName_digits pid).1 c hc
  exact hother value hvalue heq

theorem pidName_ne_self (pid : ℤ) : pidName pid ≠ selfName :=
  pidName_ne (show (115 : UInt8) ∈ selfName by decide) (by decide)

theorem pidName_ne_fd (pid : ℤ) : pidName pid ≠ fdName :=
  pidName_ne (show (102 : UInt8) ∈ fdName by decide) (by decide)

theorem pidName_ne_exe (pid : ℤ) : pidName pid ≠ exeName :=
  pidName_ne (show (101 : UInt8) ∈ exeName by decide) (by decide)

theorem pidName_ne_cwd (pid : ℤ) : pidName pid ≠ cwdName :=
  pidName_ne (show (99 : UInt8) ∈ cwdName by decide) (by decide)

theorem pidName_ordinary (pid : ℤ) : Ordinary (pidName pid) :=
  ⟨pidName_ne (show (46 : UInt8) ∈ [46] by decide) (by decide),
    pidName_ne (show (46 : UInt8) ∈ [46, 46] by decide) (by decide)⟩

/-- A name that is the decimal number it is read as. -/
def Canonical (name : CString) : Prop := uintToStr (strToUint name 10) 16 10 = name

instance (name : CString) : Decidable (Canonical name) := inferInstanceAs (Decidable (_ = _))

/-! ## The listed processes -/

theorem schedulerProcessList_pos {table : ProcessTable} {pid next : ℕ}
    (h : schedulerProcessList table pid = some next) : 1 ≤ next := by
  have hloop : ∀ (fuel i : ℕ), processListLoop table fuel i = some next → 1 ≤ next := by
    intro fuel
    induction fuel with
    | zero =>
        intro i hi
        cases hi
    | succ fuel ih =>
        intro i hi
        rw [processListLoop] at hi
        split at hi
        · split at hi
          · cases hi
            exact Nat.le_add_left 1 i
          · exact ih _ hi
        · cases hi
  exact hloop _ _ h

theorem pids_pos {table : ProcessTable} : ∀ pid ∈ pids table, 1 ≤ pid := by
  have hfrom : ∀ (fuel start : ℕ), ∀ pid ∈ pidsFrom table fuel start, 1 ≤ pid := by
    intro fuel
    induction fuel with
    | zero =>
        intro start pid hpid
        cases hpid
    | succ fuel ih =>
        intro start pid hpid
        rw [pidsFrom] at hpid
        cases hnext : schedulerProcessList table start with
        | none =>
            rw [hnext] at hpid
            cases hpid
        | some next =>
            rw [hnext] at hpid
            rcases List.mem_cons.mp hpid with rfl | hpid
            · exact schedulerProcessList_pos hnext
            · exact ih _ _ hpid
  exact hfrom _ _

/-- A process id that the process file system knows. -/
def Listed (table : ProcessTable) (pid : ℤ) : Prop := pid ∈ (pids table).map Int.ofNat

instance (table : ProcessTable) (pid : ℤ) : Decidable (Listed table pid) :=
  inferInstanceAs (Decidable (_ ∈ _))

theorem Listed.pos {table : ProcessTable} {pid : ℤ} (h : Listed table pid) : 1 ≤ pid := by
  obtain ⟨p, hp, rfl⟩ := List.mem_map.mp h
  exact Int.ofNat_le.mpr (pids_pos p hp)

/-- The id a name stands for. -/
def pidOf (name : CString) : ℤ := toInt (strToUint name 10)

theorem toWord_pidOf (name : CString) : toWord (pidOf name) = strToUint name 10 := by
  rw [pidOf, toWord_toInt]
  exact Nat.mod_eq_of_lt (strToUintLoop_lt 10 name 0 (by decide))

/-- A name is canonical when it is the name of the process it stands for. -/
theorem canonical_iff {name : CString} : Canonical name ↔ pidName (pidOf name) = name := by
  rw [Canonical, pidName, toWord_pidOf]

theorem pidOf_pidName (pid : ℤ) : pidOf (pidName pid) = toInt (toWord pid) := by
  rw [pidOf, strToUint_pidName]

theorem not_listed_of_pidOf {table : ProcessTable} {name : CString} (h : pidOf name = 0) :
    ¬ Listed table (pidOf name) := by
  intro hlisted
  have hpos := hlisted.pos
  omega

/-! ## Up and down -/

/-- The state of a fresh reference. -/
def fresh : ProcState := ⟨0, .root, 0⟩

/-- What `..` makes of a state. -/
def ProcState.up (state : ProcState) : ProcState :=
  match state.node with
  | .proc => { state with node := .root, offset := 0 }
  | .fd => { state with node := .proc, offset := 0 }
  | _ => state

section Up

variable {table : ProcessTable} {state : ProcState} {flags : ℕ}

theorem openState_root {name : CString} (hnode : state.node = .root) (hself : name ≠ selfName) :
    openState table state name flags =
      if Listed table (pidOf name) then (0, ⟨pidOf name, .proc, 0⟩)
      else (-linuxEnoent, state) := by
  rw [openState, hnode]
  exact if_neg hself

theorem openState_self (hnode : state.node = .root) :
    openState table state selfName flags =
      (0, ⟨schedulerGetCurrentPid table, if nofollow flags then .self else .proc, 0⟩) := by
  rw [openState, hnode]
  exact if_pos rfl

theorem openState_up (state : ProcState) :
    (openState table state upName flags).2 = state.up := by
  cases hnode : state.node with
  | root =>
      have hzero : pidOf upName = 0 := by decide
      rw [openState_root hnode (by decide), if_neg (not_listed_of_pidOf hzero), ProcState.up, hnode]
  | proc => simp [openState, ProcState.up, hnode]
  | fd => simp [openState, ProcState.up, hnode]
  | exe => simp [openState, ProcState.up, hnode]
  | cwd => simp [openState, ProcState.up, hnode]
  | self => simp [openState, ProcState.up, hnode]

/-- Only the flag `OPEN_NOFOLLOW` matters. -/
theorem openState_congr {flags' : ℕ} (h : nofollow flags = nofollow flags') (name : CString) :
    openState table state name flags = openState table state name flags' := by
  unfold openState
  rw [h]

end Up

theorem nofollow_directoryFlags (flags : ℕ) : nofollow (directoryFlags flags) = nofollow flags := by
  have hzero : openDirectory &&& openNofollow = 0 := by decide
  rw [nofollow, nofollow, directoryFlags, Nat.and_or_distrib_right, hzero, Nat.zero_or,
    Nat.and_assoc, Nat.and_self]

/-- Open names one after the other. -/
def openAll (table : ProcessTable) (flags : ℕ) : ProcState → List CString → Option ProcState
  | state, [] => some state
  | state, name :: ns =>
      if (openState table state name flags).1 = 0 then
        openAll table flags (openState table state name flags).2 ns
      else none

/-- The name shown for a state, where the node of the mount tree has a name of
its own. -/
def shownName (nodeName : CString) (state : ProcState) : CString :=
  match state.node with
  | .root => nodeName
  | .proc => pidName state.pid
  | .fd => fdName
  | .exe => exeName
  | .cwd => cwdName
  | .self => selfName

/-- The names shown on the way up from a depth. -/
def innerNames (nodeName : CString) : ℕ → ProcState → List CString
  | 0, _ => []
  | depth + 1, state => innerNames nodeName depth state.up ++ [shownName nodeName state]

/-- The state after some steps up. -/
def upBy : ℕ → ProcState → ProcState
  | 0, state => state
  | depth + 1, state => upBy depth state.up

theorem length_innerNames (nodeName : CString) :
    ∀ (depth : ℕ) (state : ProcState), (innerNames nodeName depth state).length = depth
  | 0, _ => rfl
  | depth + 1, state => by
      rw [innerNames, List.length_append, length_innerNames nodeName depth]
      rfl

/-- A link that is followed without moving the node. -/
def IsLink (name : CString) : Prop := name = fdName ∨ name = exeName

section Descent

variable {table : ProcessTable} {flags : ℕ}

/-- Nothing but `..` leads out of a node below a process, and nothing at all out
of `self`. -/
theorem openAll_leaf {state : ProcState} (hroot : state.node ≠ .root) (hproc : state.node ≠ .proc)
    {ns : List CString} (hns : ∀ name ∈ ns, Ordinary name) {final : ProcState}
    (h : openAll table flags state ns = some final) : ns = [] ∧ final = state := by
  cases ns with
  | nil => exact ⟨rfl, (Option.some.inj h).symm⟩
  | cons name ns =>
      have hname : name ≠ upName := (hns name List.mem_cons_self).2
      have hcode : (openState table state name flags).1 ≠ 0 := by
        cases hnode : state.node with
        | root => exact absurd hnode hroot
        | proc => exact absurd hnode hproc
        | fd =>
            rw [openState, hnode]
            dsimp only
            rw [if_neg hname]
            exact show -linuxEnoent ≠ 0 by decide
        | exe =>
            rw [openState, hnode]
            exact show -linuxEio ≠ 0 by decide
        | cwd =>
            rw [openState, hnode]
            exact show -linuxEio ≠ 0 by decide
        | self =>
            rw [openState, hnode]
            exact show -linuxEio ≠ 0 by decide
      rw [openAll, if_neg hcode] at h
      cases h

/-- Where names lead from a process: nowhere, to a node below it, or along links
that leave the node where it is. -/
inductive Below (flags : ℕ) (pid : ℤ) : List CString → ProcState → Prop
  | here : Below flags pid [] ⟨pid, .proc, 0⟩
  | fd (hflag : nofollow flags = true) : Below flags pid [fdName] ⟨pid, .fd, 0⟩
  | exe (hflag : nofollow flags = true) : Below flags pid [exeName] ⟨pid, .exe, 0⟩
  | cwd : Below flags pid [cwdName] ⟨pid, .cwd, 0⟩
  | link {name : CString} {ns : List CString} {state : ProcState} (hflag : nofollow flags = false)
      (hname : IsLink name) (hrest : Below flags pid ns state) : Below flags pid (name :: ns) state

theorem openAll_proc {pid : ℤ} :
    ∀ {ns : List CString} {final : ProcState}, (∀ name ∈ ns, Ordinary name) →
      openAll table flags ⟨pid, .proc, 0⟩ ns = some final → Below flags pid ns final
  | [], final, _, h => by
      cases h
      exact .here
  | name :: ns, final, hns, h => by
      have hup : name ≠ upName := (hns name List.mem_cons_self).2
      have hrest := fun n hn => hns n (List.mem_cons_of_mem _ hn)
      have hleaf : ∀ {node : ProcNode}, node ≠ .root → node ≠ .proc →
          openAll table flags ⟨pid, node, 0⟩ ns = some final →
          ns = [] ∧ final = ⟨pid, node, 0⟩ := fun h₁ h₂ h => openAll_leaf h₁ h₂ hrest h
      rw [openAll, openState] at h
      dsimp only at h
      rw [if_neg hup] at h
      by_cases hfd : name = fdName
      · rw [if_pos hfd, if_pos rfl] at h
        subst hfd
        cases hflag : nofollow flags with
        | true =>
            rw [hflag] at h
            obtain ⟨rfl, rfl⟩ := hleaf (by decide) (by decide) h
            exact .fd hflag
        | false =>
            rw [hflag] at h
            exact .link hflag (Or.inl rfl) (openAll_proc hrest h)
      rw [if_neg hfd] at h
      by_cases hexe : name = exeName
      · rw [if_pos hexe, if_pos rfl] at h
        subst hexe
        cases hflag : nofollow flags with
        | true =>
            rw [hflag] at h
            obtain ⟨rfl, rfl⟩ := hleaf (by decide) (by decide) h
            exact .exe hflag
        | false =>
            rw [hflag] at h
            exact .link hflag (Or.inr rfl) (openAll_proc hrest h)
      rw [if_neg hexe] at h
      by_cases hcwd : name = cwdName
      · rw [if_pos hcwd, if_pos rfl] at h
        subst hcwd
        obtain ⟨rfl, rfl⟩ := hleaf (by decide) (by decide) h
        exact .cwd
      · rw [if_neg hcwd, if_neg (show -linuxEnoent ≠ 0 by decide)] at h
        cases h

theorem openAll_fresh {ns : List CString} {final : ProcState} (hns : ∀ name ∈ ns, Ordinary name)
    (h : openAll table flags fresh ns = some final) :
    (ns = [] ∧ final = fresh) ∨
    (nofollow flags = true ∧ ns = [selfName] ∧
      final = ⟨schedulerGetCurrentPid table, .self, 0⟩) ∨
    ∃ name rest pid, ns = name :: rest ∧ Below flags pid rest final ∧
      ((name = selfName ∧ nofollow flags = false ∧ pid = schedulerGetCurrentPid table) ∨
        (name ≠ selfName ∧ Listed table (pidOf name) ∧ pid = pidOf name)) := by
  cases ns with
  | nil =>
      cases h
      exact Or.inl ⟨rfl, rfl⟩
  | cons name rest =>
      right
      have hrest := fun n hn => hns n (List.mem_cons_of_mem name hn)
      rw [openAll] at h
      by_cases hself : name = selfName
      · subst hself
        rw [openState_self rfl, if_pos rfl] at h
        cases hflag : nofollow flags with
        | true =>
            rw [hflag] at h
            obtain ⟨rfl, rfl⟩ := openAll_leaf (show ProcNode.self ≠ .root by decide)
              (show ProcNode.self ≠ .proc by decide) hrest h
            exact Or.inl ⟨rfl, rfl, rfl⟩
        | false =>
            rw [hflag] at h
            exact Or.inr ⟨_, rest, _, rfl, openAll_proc hrest h, Or.inl ⟨rfl, rfl, rfl⟩⟩
      · rw [openState_root rfl hself] at h
        by_cases hlisted : Listed table (pidOf name)
        · rw [if_pos hlisted, if_pos rfl] at h
          exact Or.inr ⟨name, rest, _, rfl, openAll_proc hrest h, Or.inr ⟨hself, hlisted, rfl⟩⟩
        · rw [if_neg hlisted, if_neg (show -linuxEnoent ≠ 0 by decide)] at h
          cases h

/-- Where links are followed, a walk below a process stays there or ends at its
working directory. -/
theorem Below.of_follow {pid : ℤ} {ns : List CString} {state : ProcState}
    (h : Below flags pid ns state) (hflag : nofollow flags = false) :
    ((∀ name ∈ ns, IsLink name) ∧ state = ⟨pid, .proc, 0⟩) ∨
    ∃ front, ns = front ++ [cwdName] ∧ (∀ name ∈ front, IsLink name) ∧
      state = ⟨pid, .cwd, 0⟩ := by
  induction h with
  | here => exact Or.inl ⟨fun _ hname => absurd hname List.not_mem_nil, rfl⟩
  | fd hon =>
      rw [hflag] at hon
      cases hon
  | exe hon =>
      rw [hflag] at hon
      cases hon
  | cwd => exact Or.inr ⟨[], rfl, fun _ hname => absurd hname List.not_mem_nil, rfl⟩
  | link _ hname _ ih =>
      rcases ih with ⟨hlinks, rfl⟩ | ⟨front, rfl, hlinks, rfl⟩
      · refine Or.inl ⟨?_, rfl⟩
        rintro n (_ | ⟨_, hn⟩)
        · exact hname
        · exact hlinks n hn
      · refine Or.inr ⟨_ :: front, rfl, ?_, rfl⟩
        rintro n (_ | ⟨_, hn⟩)
        · exact hname
        · exact hlinks n hn

theorem IsLink.ne_cwd {name : CString} (h : IsLink name) : name ≠ cwdName := by
  rcases h with rfl | rfl
  · decide
  · decide

theorem IsLink.ne_pidName {name : CString} (h : IsLink name) (pid : ℤ) : pidName pid ≠ name := by
  rcases h with rfl | rfl
  · exact pidName_ne_fd pid
  · exact pidName_ne_exe pid

/-- The names shown below a process are the ones that were opened only for the
process itself and for its descriptors. -/
theorem Below.innerNames_iff {pid : ℤ} {ns : List CString} {state : ProcState}
    (h : Below flags pid ns state) (nodeName : CString) {first : CString} (hexe : first ≠ exeName)
    (hcwd : first ≠ cwdName) :
    innerNames nodeName (ns.length + 1) state = first :: ns ↔
      (ns = [] ∨ ns = [fdName] ∧ nofollow flags = true) ∧ first = pidName pid := by
  cases h with
  | here =>
      change [pidName pid] = [first] ↔ _
      constructor
      · intro heq
        exact ⟨Or.inl rfl, (List.cons.inj heq).1.symm⟩
      · rintro ⟨_, rfl⟩
        rfl
  | fd hflag =>
      change [pidName pid, fdName] = [first, fdName] ↔ _
      constructor
      · intro heq
        exact ⟨Or.inr ⟨rfl, hflag⟩, (List.cons.inj heq).1.symm⟩
      · rintro ⟨_, rfl⟩
        rfl
  | exe hflag =>
      change [exeName, exeName] = [first, exeName] ↔ _
      constructor
      · intro heq
        exact absurd (List.cons.inj heq).1.symm hexe
      · rintro ⟨hbad | ⟨hbad, _⟩, _⟩
        · cases hbad
        · exact absurd hbad (by decide)
  | cwd =>
      change [cwdName, cwdName] = [first, cwdName] ↔ _
      constructor
      · intro heq
        exact absurd (List.cons.inj heq).1.symm hcwd
      · rintro ⟨hbad | ⟨hbad, _⟩, _⟩
        · cases hbad
        · exact absurd hbad (by decide)
  | @link name rest _ hflag hname hrest =>
      have hbelow : Below flags pid (name :: rest) state := .link hflag hname hrest
      constructor
      · intro heq
        exfalso
        rcases hbelow.of_follow hflag with ⟨hlinks, rfl⟩ | ⟨front, hfront, hlinks, rfl⟩
        · -- the last name shown is that of the process
          obtain ⟨front, last, hlast⟩ := (List.eq_nil_or_concat (name :: rest)).resolve_left
            (List.cons_ne_nil _ _)
          rw [List.concat_eq_append] at hlast
          rw [innerNames, hlast, ← List.cons_append] at heq
          have hshown := (List.append_singleton_inj.mp heq).2
          have hlink : IsLink last := hlinks last (by rw [hlast]; simp)
          exact hlink.ne_pidName pid hshown
        · -- the working directory is shown twice
          cases front with
          | nil => exact hname.ne_cwd (List.cons.inj hfront).1
          | cons second front =>
              obtain ⟨before, last, hlast⟩ := (List.eq_nil_or_concat (second :: front)).resolve_left
                (List.cons_ne_nil _ _)
              rw [List.concat_eq_append] at hlast
              have hlink : IsLink last := hlinks last (by rw [hlast]; simp)
              rw [List.length_cons, innerNames, innerNames, hfront, ← List.cons_append, hlast,
                ← List.cons_append] at heq
              have hshown := (List.append_singleton_inj.mp (List.append_singleton_inj.mp heq).1).2
              exact hlink.ne_cwd hshown.symm
      · rintro ⟨hbad | ⟨_, hon⟩, _⟩
        · cases hbad
        · rw [hflag] at hon
          cases hon

/-! ## What is shown again -/

/-- The names of a trace are the ones that were opened, or show a followed
`self` as the process it led to. -/
def Shown (table : ProcessTable) (flags : ℕ) (ns actual : List CString) : Prop :=
  actual = ns ∨ nofollow flags = false ∧ ∃ rest, ns = selfName :: rest ∧
    actual = pidName (schedulerGetCurrentPid table) :: rest

/-- The names below a mount node that are shown again: none, a process by its
number or by `self`, and the descriptors of a process where links are not
followed. -/
inductive Readable (flags : ℕ) : List CString → Prop
  | root : Readable flags []
  | self : Readable flags [selfName]
  | process {name : CString} (hname : Canonical name) : Readable flags [name]
  | descriptors {name : CString} (hname : Canonical name) (hflag : nofollow flags = true) :
      Readable flags [name, fdName]

theorem not_listed_exe : ¬ Listed table (pidOf exeName) := not_listed_of_pidOf (by decide)

theorem not_listed_cwd : ¬ Listed table (pidOf cwdName) := not_listed_of_pidOf (by decide)

theorem not_canonical_self : ¬ Canonical selfName := by decide

/-- Exactly the readable names are shown again. -/
theorem shown_innerNames_iff {ns : List CString} {final : ProcState}
    (hns : ∀ name ∈ ns, Ordinary name) (h : openAll table flags fresh ns = some final)
    (nodeName : CString) :
    Shown table flags ns (innerNames nodeName ns.length final) ↔ Readable flags ns := by
  rcases openAll_fresh hns h with ⟨rfl, rfl⟩ | ⟨_, rfl, rfl⟩ | ⟨name, rest, pid, rfl, hbelow, hkind⟩
  · exact ⟨fun _ => .root, fun _ => Or.inl rfl⟩
  · exact ⟨fun _ => .self, fun _ => Or.inl rfl⟩
  rcases hkind with ⟨rfl, hflag, rfl⟩ | ⟨hself, hlisted, rfl⟩
  · -- a followed `self` is shown as the process
    have hself := hbelow.innerNames_iff nodeName (show selfName ≠ exeName by decide)
      (show selfName ≠ cwdName by decide)
    have hpid := hbelow.innerNames_iff nodeName (pidName_ne_exe (schedulerGetCurrentPid table))
      (pidName_ne_cwd _)
    constructor
    · rintro (heq | ⟨_, tail, hns', heq⟩)
      · exact absurd (hself.mp heq).2.symm (pidName_ne_self _)
      · cases hns'
        rcases (hpid.mp heq).1 with rfl | ⟨_, hon⟩
        · exact .self
        · rw [hflag] at hon
          cases hon
    · intro hread
      have hrest : rest = [] := by
        cases hread with
        | self => rfl
        | process _ => rfl
        | descriptors _ hon =>
            rw [hflag] at hon
            cases hon
      exact Or.inr ⟨hflag, rest, rfl, hpid.mpr ⟨Or.inl hrest, rfl⟩⟩
  · have hexe : name ≠ exeName := by
      rintro rfl
      exact not_listed_exe hlisted
    have hcwd : name ≠ cwdName := by
      rintro rfl
      exact not_listed_cwd hlisted
    have hname := hbelow.innerNames_iff nodeName hexe hcwd
    constructor
    · rintro (heq | ⟨_, tail, hns', _⟩)
      · obtain ⟨hrest, hcanonical⟩ := hname.mp heq
        have hcanonical' : Canonical name := canonical_iff.mpr hcanonical.symm
        rcases hrest with rfl | ⟨rfl, hon⟩
        · exact .process hcanonical'
        · exact .descriptors hcanonical' hon
      · exact absurd (List.cons.inj hns').1 hself
    · intro hread
      refine Or.inl (hname.mpr ?_)
      cases hread with
      | self => exact absurd rfl hself
      | process hcanonical => exact ⟨Or.inl rfl, (canonical_iff.mp hcanonical).symm⟩
      | descriptors hcanonical hon =>
          exact ⟨Or.inr ⟨rfl, hon⟩, (canonical_iff.mp hcanonical).symm⟩

/-- Going up again ends at the root, except from `self` itself. -/
theorem upBy_of_readable {ns : List CString} {final : ProcState}
    (hns : ∀ name ∈ ns, Ordinary name) (h : openAll table flags fresh ns = some final)
    (hread : Readable flags ns) :
    (upBy ns.length final).node = .root ∨
      nofollow flags = true ∧ ns = [selfName] ∧ (upBy ns.length final).node = .self := by
  rcases openAll_fresh hns h with ⟨rfl, rfl⟩ | ⟨hflag, rfl, rfl⟩ |
      ⟨name, rest, pid, rfl, hbelow, hkind⟩
  · exact Or.inl rfl
  · exact Or.inr ⟨hflag, rfl, rfl⟩
  · left
    have hrest : rest = [] ∨ rest = [fdName] ∧ nofollow flags = true := by
      cases hread with
      | self => exact Or.inl rfl
      | process _ => exact Or.inl rfl
      | descriptors _ hon => exact Or.inr ⟨rfl, hon⟩
    rcases hrest with rfl | ⟨rfl, hon⟩
    · cases hbelow
      rfl
    · cases hbelow with
      | fd _ => rfl
      | link hoff _ _ =>
          rw [hon] at hoff
          cases hoff

end Descent

end Neos.Procfs
