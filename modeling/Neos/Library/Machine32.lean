import Mathlib.Data.BitVec
import Mathlib.Tactic

/-!
# A 32-bit machine and its stack

Registers, segments, byte memory and the instructions that move the stack pointer.  The
words on the stack are a list: a push adds a head, a pop removes it, and what lies
deeper is kept.  The address under the list tells the stack pointer from its length, so
balanced code is code that leaves the same list.
-/

namespace Machine32

abbrev Word := BitVec 32

abbrev Byte := BitVec 8

/-- The general registers other than `ESP`, and the flags. -/
structure Registers where
  eax : Word
  ecx : Word
  edx : Word
  ebx : Word
  ebp : Word
  esi : Word
  edi : Word
  eflags : Word

/-- The segment registers. -/
structure Segments where
  cs : BitVec 16
  ds : BitVec 16
  ss : BitVec 16
  es : BitVec 16
  fs : BitVec 16
  gs : BitVec 16

/-- The machine.  All segments are flat, so an offset is an address; `sent` lists the
bytes written to the ports. -/
structure Machine where
  regs : Registers
  segs : Segments
  esp : Word
  eip : Word
  mem : Word → Byte
  sent : List (BitVec 16 × Byte)

/-! ## Memory -/

/-- A little-endian load. -/
def load (mem : Word → Byte) (a : Word) : Word :=
  mem (a + 3) ++ mem (a + 2) ++ mem (a + 1) ++ mem a

/-- A little-endian store. -/
def store (mem : Word → Byte) (a v : Word) : Word → Byte := fun x =>
  if (x - a).toNat < 4 then v.extractLsb' (8 * (x - a).toNat) 8 else mem x

section

variable {mem mem' : Word → Byte} {a b v : Word}

/-- A word is the four bytes it is made of. -/
theorem append_bytes (v : Word) :
    v.extractLsb' 24 8 ++ v.extractLsb' 16 8 ++ v.extractLsb' 8 8 ++ v.extractLsb' 0 8 = v := by
  ext i hi
  simp only [BitVec.getElem_append, BitVec.getElem_extractLsb']
  split
  · rw [Nat.zero_add]
    exact BitVec.getLsbD_eq_getElem hi
  · split
    · rw [show 8 + (i - 8) = i by omega]
      exact BitVec.getLsbD_eq_getElem hi
    · split
      · rw [show 16 + (i - 8 - 8) = i by omega]
        exact BitVec.getLsbD_eq_getElem hi
      · rw [show 24 + (i - 8 - 8 - 8) = i by omega]
        exact BitVec.getLsbD_eq_getElem hi

theorem load_store_self : load (store mem a v) a = v := by
  have h₀ : store mem a v a = v.extractLsb' 0 8 := by
    have h : (a - a).toNat = 0 := by simp
    simp only [store, h, Nat.mul_zero, Nat.ofNat_pos, if_true]
  have h₁ : store mem a v (a + 1) = v.extractLsb' 8 8 := by simp [store]
  have h₂ : store mem a v (a + 2) = v.extractLsb' 16 8 := by simp [store]
  have h₃ : store mem a v (a + 3) = v.extractLsb' 24 8 := by simp [store]
  rw [load, h₀, h₁, h₂, h₃, append_bytes]

theorem store_store (mem : Word → Byte) (a v v' : Word) :
    store (store mem a v) a v' = store mem a v' := by
  funext x
  unfold store
  split
  · rfl
  · rfl

/-- A store leaves the words it does not overlap. -/
theorem load_store_of_ne (h₁ : 4 ≤ (b - a).toNat) (h₂ : 4 ≤ (a - b).toNat) :
    load (store mem a v) b = load mem b := by
  have hout : ∀ i : ℕ, i < 4 →
      store mem a v (b + BitVec.ofNat 32 i) = mem (b + BitVec.ofNat 32 i) := by
    intro i hi
    rw [store, if_neg]
    bv_omega
  have h₀ := hout 0 (by decide)
  rw [BitVec.add_zero] at h₀
  have h₁ : store mem a v (b + 1) = mem (b + 1) := hout 1 (by decide)
  have h₂ : store mem a v (b + 2) = mem (b + 2) := hout 2 (by decide)
  have h₃ : store mem a v (b + 3) = mem (b + 3) := hout 3 (by decide)
  rw [load, load, h₀, h₁, h₂, h₃]

end

/-! ## Registers -/

/-- The low byte of a register, such as `AL`. -/
def low (v : Word) : Byte := v.extractLsb' 0 8

/-- The second byte of a register, such as `AH`. -/
def high (v : Word) : Byte := v.extractLsb' 8 8

theorem low_append (v : BitVec 24) (b : Byte) : low (v ++ b) = b :=
  BitVec.extractLsb'_append_eq_right

namespace Machine

def setEax (m : Machine) (v : Word) : Machine := { m with regs := { m.regs with eax := v } }

def setEcx (m : Machine) (v : Word) : Machine := { m with regs := { m.regs with ecx := v } }

def setEdx (m : Machine) (v : Word) : Machine := { m with regs := { m.regs with edx := v } }

def setEbx (m : Machine) (v : Word) : Machine := { m with regs := { m.regs with ebx := v } }

def setEbp (m : Machine) (v : Word) : Machine := { m with regs := { m.regs with ebp := v } }

def setEsi (m : Machine) (v : Word) : Machine := { m with regs := { m.regs with esi := v } }

def setAl (m : Machine) (v : Byte) : Machine := m.setEax (m.regs.eax.extractLsb' 8 24 ++ v)

def setAh (m : Machine) (v : Byte) : Machine :=
  m.setEax (m.regs.eax.extractLsb' 16 16 ++ v ++ m.regs.eax.extractLsb' 0 8)

def setAx (m : Machine) (v : BitVec 16) : Machine := m.setEax (m.regs.eax.extractLsb' 16 16 ++ v)

/-- The zero flag and the carry flag.  The other flags are not read by any jump. -/
def setFlags (m : Machine) (zero carry : Bool) : Machine :=
  { m with regs := { m.regs with eflags :=
      (m.regs.eflags &&& ~~~0x41#32) ||| (if zero then 0x40#32 else 0) |||
        (if carry then 1#32 else 0) } }

def zf (m : Machine) : Bool := m.regs.eflags.getLsbD 6

def cf (m : Machine) : Bool := m.regs.eflags.getLsbD 0

@[simp] theorem zf_setFlags (m : Machine) (zero carry : Bool) :
    (m.setFlags zero carry).zf = zero := by
  cases zero <;> cases carry <;> simp [zf, setFlags]

@[simp] theorem cf_setFlags (m : Machine) (zero carry : Bool) :
    (m.setFlags zero carry).cf = carry := by
  cases zero <;> cases carry <;> simp [cf, setFlags]

/-! ## The stack -/

def push (m : Machine) (v : Word) : Machine :=
  { m with esp := m.esp - 4, mem := store m.mem (m.esp - 4) v }

@[simp] theorem push_regs (m : Machine) (v : Word) : (m.push v).regs = m.regs := rfl

@[simp] theorem push_segs (m : Machine) (v : Word) : (m.push v).segs = m.segs := rfl

@[simp] theorem push_sent (m : Machine) (v : Word) : (m.push v).sent = m.sent := rfl

@[simp] theorem push_esp (m : Machine) (v : Word) : (m.push v).esp = m.esp - 4 := rfl

/-- The word on top of the stack. -/
def top (m : Machine) : Word := load m.mem m.esp

/-- The word `i` bytes into the stack. -/
def peek (m : Machine) (i : Word) : Word := load m.mem (m.esp + i)

/-- `add esp, n`. -/
def release (m : Machine) (n : Word) : Machine := { m with esp := m.esp + n }

/-- `ret`. -/
def ret (m : Machine) : Machine := { m.release 4 with eip := m.top }

/-- `retf n`. -/
def retf (m : Machine) (n : Word) : Machine :=
  { m.release (8 + n) with
    eip := m.top
    segs := { m.segs with cs := (m.peek 4).setWidth 16 } }

/-- `iret` without a change of privilege. -/
def iret (m : Machine) : Machine :=
  { m.release 12 with
    eip := m.top
    segs := { m.segs with cs := (m.peek 4).setWidth 16 }
    regs := { m.regs with eflags := m.peek 8 } }

/-- An interrupt through an interrupt gate, without a change of privilege: the flags, `CS`
and `EIP` are pushed, and `IF` is cleared with `TF`, `NT`, `RF` and `VM`. -/
def interrupt (gate : BitVec 16) (handler : Word) (m : Machine) : Machine :=
  let q := ((m.push m.regs.eflags).push (m.segs.cs.setWidth 32)).push m.eip
  { q with
    regs := { q.regs with eflags := q.regs.eflags &&& ~~~0x34300#32 }
    segs := { q.segs with cs := gate }
    eip := handler }

/-- `pusha`. -/
def pusha (m : Machine) : Machine :=
  (((((((m.push m.regs.eax).push m.regs.ecx).push m.regs.edx).push m.regs.ebx).push m.esp).push
    m.regs.ebp).push m.regs.esi).push m.regs.edi

/-- `popa`, which skips the saved `ESP`. -/
def popa (m : Machine) : Machine :=
  { m.release 32 with
    regs :=
      { m.regs with
        edi := m.peek 0, esi := m.peek 4, ebp := m.peek 8, ebx := m.peek 16, edx := m.peek 20,
        ecx := m.peek 24, eax := m.peek 28 } }

/-- `call`: the run goes on behind the call only if the routine returns there. -/
def call (behind : Word) (f : Machine → Machine) (m : Machine) : Option Machine :=
  if (f (m.push behind)).eip = behind then some (f (m.push behind)) else none

/-- `out`. -/
def out (m : Machine) (port : BitVec 16) (v : Byte) : Machine :=
  { m with sent := m.sent ++ [(port, v)] }

end Machine

/-! ## The stack as a list -/

/-- The words `vs` lie on the stack, above them the address `bottom`. -/
def Holds (esp : Word) (mem : Word → Byte) (bottom : Word) (vs : List Word) : Prop :=
  esp + BitVec.ofNat 32 (4 * vs.length) = bottom ∧
    ∀ i (h : i < vs.length), load mem (esp + BitVec.ofNat 32 (4 * i)) = vs[i]

section

variable {m : Machine} {bottom v : Word} {vs : List Word}

/-- Whatever lies on the stack is a list of words. -/
theorem holds_peeks (m : Machine) (n : ℕ) :
    Holds m.esp m.mem (m.esp + BitVec.ofNat 32 (4 * n))
      ((List.range n).map fun i => m.peek (BitVec.ofNat 32 (4 * i))) := by
  refine ⟨by simp, fun i h => ?_⟩
  simp [Machine.peek]

theorem Holds.esp_eq (h : Holds m.esp m.mem bottom vs) :
    m.esp = bottom - BitVec.ofNat 32 (4 * vs.length) := by
  rw [← h.1, BitVec.add_sub_cancel]

theorem Holds.peek (h : Holds m.esp m.mem bottom vs) {i : ℕ} (hi : i < vs.length) :
    m.peek (BitVec.ofNat 32 (4 * i)) = vs[i] := h.2 i hi

theorem Holds.peek_of_getElem? (h : Holds m.esp m.mem bottom vs) {i : ℕ} (hi : vs[i]? = some v) :
    m.peek (BitVec.ofNat 32 (4 * i)) = v := by
  obtain ⟨hlt, rfl⟩ := List.getElem?_eq_some_iff.mp hi
  exact h.peek hlt

theorem Holds.top (h : Holds m.esp m.mem bottom (v :: vs)) : m.top = v := by
  have hword := h.2 0 (by simp)
  rwa [Nat.mul_zero, BitVec.add_zero] at hword

theorem Holds.push (h : Holds m.esp m.mem bottom vs) (v : Word) (hsmall : vs.length < 2 ^ 20) :
    Holds (m.push v).esp (m.push v).mem bottom (v :: vs) := by
  constructor
  · rw [← h.1]
    simp only [Machine.push, List.length_cons]
    bv_omega
  · intro i hi
    cases i with
    | zero =>
        simp only [Machine.push, Nat.mul_zero, BitVec.add_zero, List.getElem_cons_zero]
        exact load_store_self
    | succ i =>
        have haddr : m.esp - 4 + BitVec.ofNat 32 (4 * (i + 1)) =
            m.esp + BitVec.ofNat 32 (4 * i) := by bv_omega
        rw [List.length_cons] at hi
        simp only [Machine.push, List.getElem_cons_succ]
        rw [haddr, ← h.2 i (by omega), load_store_of_ne]
        · bv_omega
        · bv_omega

/-- `add esp` drops words. -/
theorem Holds.release (us : List Word) (h : Holds m.esp m.mem bottom (us ++ vs)) :
    Holds (m.release (BitVec.ofNat 32 (4 * us.length))).esp m.mem bottom vs := by
  constructor
  · rw [← h.1, List.length_append]
    simp only [Machine.release]
    bv_omega
  · intro i hi
    have hword := h.2 (us.length + i) (by rw [List.length_append]; omega)
    rw [List.getElem_append_right (by omega)] at hword
    simp only [Nat.add_sub_cancel_left] at hword
    rw [← hword, Machine.release]
    congr 1
    bv_omega

/-- The word at an address given from the bottom of the list. -/
theorem Holds.load_at (h : Holds m.esp m.mem bottom vs) {i : ℕ} (hi : i < vs.length) {a : Word}
    (ha : a + BitVec.ofNat 32 (4 * vs.length) = bottom + BitVec.ofNat 32 (4 * i)) :
    load m.mem a = vs[i] := by
  rw [← h.2 i hi]
  congr 1
  rw [← h.1] at ha
  bv_omega

/-! ## Calls -/

/-- The registers a routine leaves to its caller. -/
structure CalleeSaved (m m' : Machine) : Prop where
  ebx : m'.regs.ebx = m.regs.ebx
  ebp : m'.regs.ebp = m.regs.ebp
  esi : m'.regs.esi = m.regs.esi
  edi : m'.regs.edi = m.regs.edi

/-- A routine that obeys the `cdecl` convention when it is entered in one of the states
`entered`, with `args` words of arguments and under them `frame` words of its caller.  It
may write over its arguments, and over the word its argument `out` points to. -/
structure Cdecl (f : Machine → Machine) (args frame : ℕ) (out : Option ℕ)
    (entered : Machine → Prop) : Prop where
  returns : ∀ m, entered m → (f m).eip = m.top
  balanced : ∀ m, entered m → (f m).esp = m.esp + 4
  saved : ∀ m, entered m → CalleeSaved m (f m)
  kept : ∀ m, entered m → ∀ (i : ℕ) (a : Word), i < frame →
    a = m.esp + BitVec.ofNat 32 (4 * (1 + args + i)) →
    (∀ k v, out = some k → v = m.peek (BitVec.ofNat 32 (4 * (1 + k))) →
      4 ≤ (a - v).toNat ∧ 4 ≤ (v - a).toNat) →
    load (f m).mem a = load m.mem a

theorem Machine.call_eq {f : Machine → Machine} {behind : Word}
    (h : (f (m.push behind)).eip = behind) : m.call behind f = some (f (m.push behind)) :=
  if_pos h

/-- What a routine leaves behind on a balanced return. -/
structure Returned (m m' : Machine) (bottom : Word) (vs : List Word) : Prop where
  holds : Holds m'.esp m'.mem bottom vs
  saved : CalleeSaved m m'

/-- A routine that only changes registers and ports before its `ret`. -/
theorem Holds.call_ret {f : Machine → Machine} {behind : Word} {q : Machine}
    (h : Holds m.esp m.mem bottom vs) (hsmall : vs.length < 2 ^ 20)
    (hf : f (m.push behind) = q.ret) (hesp : q.esp = (m.push behind).esp)
    (hmem : q.mem = (m.push behind).mem) (hsaved : CalleeSaved m q) :
    m.call behind f = some q.ret ∧ Returned m q.ret bottom vs := by
  have hcalled := h.push behind hsmall
  rw [← hesp, ← hmem] at hcalled
  have heip : (f (m.push behind)).eip = behind := by
    rw [hf]
    exact hcalled.top
  refine ⟨?_, ?_, hsaved.ebx, hsaved.ebp, hsaved.esi, hsaved.edi⟩
  · rw [Machine.call_eq heip, hf]
  · exact hcalled.release [behind]

/-- Two different words of one stack do not overlap. -/
theorem words_apart {esp v bottom : Word} {i j n : ℕ} (hbottom : esp + BitVec.ofNat 32 (4 * n) = bottom)
    (hv : v + BitVec.ofNat 32 (4 * j) = bottom) (hne : i + j ≠ n) (hi : i < n) (hj : j ≤ n)
    (hn : n < 2 ^ 16) :
    4 ≤ (esp + BitVec.ofNat 32 (4 * i) - v).toNat ∧
      4 ≤ (v - (esp + BitVec.ofNat 32 (4 * i))).toNat := by
  have hv' : v = esp + BitVec.ofNat 32 (4 * (n - j)) := by
    rw [← hbottom] at hv
    bv_omega
  clear hv hbottom
  rw [hv']
  constructor <;> bv_omega

/-- What a called routine leaves on the stack: new arguments, and the caller's frame but
for the word its argument points to. -/
theorem Cdecl.holds {f : Machine → Machine} {args frame : ℕ} {out : Option ℕ} {behind : Word}
    {entered : Machine → Prop} (hf : Cdecl f args frame out entered) {as fs : List Word} (slot : ℕ)
    (h : Holds m.esp m.mem bottom (as ++ fs)) (has : as.length = args) (hfs : fs.length = frame)
    (hsmall : args + frame < 2 ^ 16) (hentered : entered (m.push behind))
    (hout : ∀ k, out = some k → ∃ hk : k < as.length,
      as[k] + BitVec.ofNat 32 (4 * (frame - slot)) = bottom) :
    ∃ as' x, as'.length = args ∧
      Holds (f (m.push behind)).esp (f (m.push behind)).mem bottom (as' ++ fs.set slot x) := by
  have hcalled := h.push behind (by rw [List.length_append]; omega)
  have hbottom := h.1
  have hesp : (f (m.push behind)).esp = m.esp := by
    rw [hf.balanced _ hentered, Machine.push]
    exact BitVec.sub_add_cancel _ _
  have hpushed : ∀ i : ℕ, (m.push behind).esp + BitVec.ofNat 32 (4 * (1 + i)) =
      m.esp + BitVec.ofNat 32 (4 * i) := by
    intro i
    simp only [Machine.push]
    bv_omega
  refine ⟨(List.range args).map fun i => (f (m.push behind)).peek (BitVec.ofNat 32 (4 * i)),
    (f (m.push behind)).peek (BitVec.ofNat 32 (4 * (args + slot))), by simp, ?_, ?_⟩
  · rw [hesp, ← hbottom]
    simp [has]
  · intro i hi
    rcases Nat.lt_or_ge i args with harg | hframe
    · rw [List.getElem_append_left (by simpa using harg)]
      simp [Machine.peek]
    · obtain ⟨j, rfl⟩ := Nat.exists_eq_add_of_le hframe
      simp only [List.length_append, List.length_map, List.length_range, List.length_set] at hi
      have hj : j < frame := by omega
      rw [List.getElem_append_right (by simp)]
      simp only [List.length_map, List.length_range, Nat.add_sub_cancel_left]
      by_cases hslot : slot = j
      · subst hslot
        rw [List.getElem_set_self]
        rfl
      · -- the frame, other than the word that may be written
        have hword : (m.push behind).peek (BitVec.ofNat 32 (4 * (1 + args + j))) = fs[j] := by
          refine hcalled.peek_of_getElem? ?_
          rw [Nat.add_assoc, Nat.add_comm 1, List.getElem?_cons_succ,
            List.getElem?_append_right (by omega), has, Nat.add_sub_cancel_left]
          exact List.getElem?_eq_getElem (by omega)
        rw [Machine.peek] at hword
        have hkept := hf.kept _ hentered j _ hj rfl ?_
        · rw [hword, Nat.add_assoc, hpushed] at hkept
          rw [hesp, hkept, List.getElem_set_ne hslot]
        · intro k v hk hv
          obtain ⟨hlt, hpointer⟩ := hout k hk
          have harg : (m.push behind).peek (BitVec.ofNat 32 (4 * (1 + k))) = as[k] := by
            refine hcalled.peek_of_getElem? ?_
            rw [Nat.add_comm 1, List.getElem?_cons_succ, List.getElem?_append_left hlt]
            exact List.getElem?_eq_getElem hlt
          rw [List.length_append, has, hfs] at hbottom
          rw [← harg, ← hv] at hpointer
          rw [Nat.add_assoc, hpushed]
          exact words_apart hbottom hpointer (by omega) (by omega) (by omega) hsmall

end

/-! ## The depth of a stack -/

/-- The stack pointer is `d` bytes below `top`, and the memory is the same but for the
`room` bytes below `top`. -/
structure AtDepth (top : Word) (room : ℕ) (mem : Word → Byte) (d : ℕ) (m : Machine) : Prop where
  depth : m.esp + BitVec.ofNat 32 d = top
  kept : ∀ a : Word, room ≤ (top - 1 - a).toNat → m.mem a = mem a

section

variable {top v : Word} {room d n : ℕ} {mem mem' : Word → Byte} {m m' : Machine}

theorem AtDepth.esp_eq (h : AtDepth top room mem d m) : m.esp = top - BitVec.ofNat 32 d := by
  rw [← h.depth, BitVec.add_sub_cancel]

theorem AtDepth.mono (h : AtDepth top n mem d m) (hroom : n ≤ room) : AtDepth top room mem d m :=
  ⟨h.depth, fun a ha => h.kept a (by omega)⟩

theorem AtDepth.push (h : AtDepth top room mem d m) (hroom : d + 4 ≤ room) (v : Word) :
    AtDepth top room mem (d + 4) (m.push v) := by
  obtain ⟨hdepth, hkept⟩ := h
  refine ⟨?_, ?_⟩
  · rw [← hdepth, Machine.push]
    bv_omega
  · intro a ha
    rw [← hkept a ha]
    refine if_neg ?_
    rw [← hdepth] at ha
    bv_omega

theorem AtDepth.release (h : AtDepth top room mem (d + n) m) (v : Word)
    (hv : v = BitVec.ofNat 32 n) : AtDepth top room mem d (m.release v) := by
  refine ⟨?_, h.kept⟩
  rw [hv, ← h.depth, Machine.release, BitVec.ofNat_add]
  bv_omega

theorem holds_nil (esp : Word) (mem : Word → Byte) : Holds esp mem esp [] :=
  ⟨BitVec.add_zero esp, fun _ hi => absurd hi (Nat.not_lt_zero _)⟩

/-- Words below the ones that are looked at. -/
theorem Holds.extend {esp bottom : Word} {vs : List Word} (h : Holds esp mem bottom vs) (n : ℕ) :
    ∃ us : List Word, us.length = n ∧
      Holds (esp - BitVec.ofNat 32 (4 * n)) mem bottom (us ++ vs) := by
  have hadd : ∀ i : ℕ, esp - BitVec.ofNat 32 (4 * n) + BitVec.ofNat 32 (4 * (n + i)) =
      esp + BitVec.ofNat 32 (4 * i) := by
    intro i
    rw [Nat.mul_add, BitVec.ofNat_add]
    grind
  refine ⟨(List.range n).map fun i =>
    load mem (esp - BitVec.ofNat 32 (4 * n) + BitVec.ofNat 32 (4 * i)), by simp, ?_, ?_⟩
  · rw [List.length_append, List.length_map, List.length_range, hadd]
    exact h.1
  · intro i hi
    rcases Nat.lt_or_ge i n with hlt | hge
    · rw [List.getElem_append_left (by simpa using hlt)]
      simp
    · obtain ⟨k, rfl⟩ := Nat.exists_eq_add_of_le hge
      rw [List.length_append, List.length_map, List.length_range] at hi
      rw [List.getElem_append_right (by simp), hadd, h.2 k (by omega)]
      simp

/-- A call of a routine that keeps to the room returns to the same depth. -/
theorem AtDepth.call {f : Machine → Machine} {behind : Word} (h : AtDepth top room mem d m)
    (hroom : d + 4 ≤ room) (hcall : m.call behind f = some m')
    (hf : ∀ q, AtDepth top room mem (d + 4) q → AtDepth top room mem d (f q)) :
    AtDepth top room mem d m' := by
  unfold Machine.call at hcall
  split at hcall
  · cases hcall
    exact hf _ (h.push hroom behind)
  · cases hcall

theorem AtDepth.pusha (h : AtDepth top room mem d m) (hroom : d + 32 ≤ room) :
    AtDepth top room mem (d + 32) m.pusha :=
  (((((((h.push (by omega) _).push (by omega) _).push (by omega) _).push (by omega) _).push
    (by omega) _).push (by omega) _).push (by omega) _).push (by omega) _

/-- The words of a stack depend on the bytes they lie in. -/
theorem Holds.congr {esp bottom : Word} {vs : List Word} (h : Holds esp mem bottom vs)
    (hmem : ∀ a : Word, (bottom - 1 - a).toNat < 4 * vs.length → mem' a = mem a) :
    Holds esp mem' bottom vs := by
  refine ⟨h.1, fun i hi => ?_⟩
  have hbyte : ∀ k : ℕ, k < 4 → mem' (esp + BitVec.ofNat 32 (4 * i) + BitVec.ofNat 32 k) =
      mem (esp + BitVec.ofNat 32 (4 * i) + BitVec.ofNat 32 k) := by
    intro k hk
    obtain ⟨j, hj⟩ := Nat.exists_eq_add_of_le (show 4 * i + k + 1 ≤ 4 * vs.length by omega)
    have hbelow : bottom - 1 - (esp + BitVec.ofNat 32 (4 * i) + BitVec.ofNat 32 k) =
        BitVec.ofNat 32 j := by
      rw [← h.1, hj]
      simp only [BitVec.ofNat_add]
      grind
    refine hmem _ ?_
    rw [hbelow, BitVec.toNat_ofNat]
    exact Nat.lt_of_le_of_lt (Nat.mod_le _ _) (by omega)
  have h₀ := hbyte 0 (by decide)
  rw [BitVec.add_zero] at h₀
  rw [← h.2 i hi, load, load, h₀]
  exact congrArg₂ (· ++ ·) (congrArg₂ (· ++ ·) (congrArg₂ (· ++ ·) (hbyte 3 (by decide))
    (hbyte 2 (by decide))) (hbyte 1 (by decide))) rfl

end

end Machine32
