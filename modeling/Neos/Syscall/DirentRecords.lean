import Neos.Syscall.Dirents
import Mathlib.Data.List.TakeWhile

/-!
# What a caller reads

A caller goes through the bytes a directory call returned record by record: the
size of a record is read from its header, the name is a string inside the
record, and the type lies where the layout of the call puts it.  The records
are those of the consumed entries only where the buffer already held the bytes
the calls leave out.
-/

namespace Neos.Syscall

open Vfs Scheduler ByteRange

/-! ## Decoding -/

/-- An entry as a caller sees it. -/
structure Dirent where
  seek : ℕ
  name : CString
  type : Option UInt8
deriving DecidableEq

/-- A record layout: the size of the record at a position, the place of the
offset and its width, the place of the name, the bytes behind the name, and the
place of the type. -/
structure RecordLayout where
  size : (ℕ → UInt8) → ℕ → ℕ
  seekAt : ℕ
  seekWidth : ℕ
  nameAt : ℕ
  nameTail : ℕ
  typeAt : ℕ → Option ℕ

/-- `struct linux_dirent`; the type is the last byte of the record. -/
def linuxDirent : RecordLayout where
  size buffer p := leValue (readBytes buffer (p + 8) 2)
  seekAt := 4
  seekWidth := 4
  nameAt := 10
  nameTail := 1
  typeAt reclen := some (reclen - 1)

/-- `struct linux_dirent64`. -/
def linuxDirent64 : RecordLayout where
  size buffer p := leValue (readBytes buffer (p + 16) 2)
  seekAt := 8
  seekWidth := 8
  nameAt := 19
  nameTail := 0
  typeAt _ := some 18

/-- `struct old_linux_dirent`; a record is a header and the name. -/
def oldLinuxDirent : RecordLayout where
  size buffer p := 12 + leValue (readBytes buffer (p + 8) 2)
  seekAt := 4
  seekWidth := 4
  nameAt := 10
  nameTail := 0
  typeAt _ := none

/-- The record at a position and its size, if its name ends inside it. -/
def decodeRecord (l : RecordLayout) (buffer : ℕ → UInt8) (p : ℕ) : Option (Dirent × ℕ) :=
  let size := l.size buffer p
  let field := readBytes buffer (p + l.nameAt) (size - l.nameTail - l.nameAt)
  if 0 ∈ field then
    some (⟨leValue (readBytes buffer (p + l.seekAt) l.seekWidth), field.takeWhile (· ≠ 0),
      (l.typeAt size).map fun i => buffer (p + i)⟩, size)
  else none

/-- The records of the bytes from a position up to the end, none of which goes
past the end. -/
def decode (l : RecordLayout) (buffer : ℕ → UInt8) (total : ℕ) : ℕ → ℕ → Option (List Dirent)
  | 0, _ => none
  | fuel + 1, p =>
      if p = total then some []
      else do
        let record ← decodeRecord l buffer p
        if total < p + record.2 then none
        else
          let records ← decode l buffer total fuel (p + record.2)
          some (record.1 :: records)

/-- An entry as a caller should see it. -/
def dirent (l : RecordLayout) (entry : VEntry) : Dirent where
  seek := entry.seekOffset
  name := entry.name
  type := (l.typeAt 0).map fun _ => entry.type.code

/-- The bytes a call returned are the records of the entries it consumed, in
order, and nothing else was written. -/
structure Decodes (l : RecordLayout) (buffer : ℕ → UInt8) (size : ℕ) (entries : List VEntry)
    {W : Type} (ret : Listed W) : Prop where
  isPrefix : ret.consumed <+: entries
  records : decode l ret.buffer ret.res.toNat (ret.res.toNat + 1) 0 =
    some (ret.consumed.map (dirent l))
  bound : ret.res ≤ size
  inside : ∀ x : ℕ, ret.res ≤ x → ret.buffer x = buffer x

/-! ## The bytes of a record -/

theorem nameBytes_eq {entry : VEntry} (h : Named entry) : nameBytes entry = entry.name := by
  apply List.ext_getElem
  · simp [nameBytes, h.length]
  · intro i h₁ h₂
    simp [nameBytes, charAt, List.getElem?_eq_getElem h₂]

/-- A string is read up to the first null byte behind it. -/
theorem takeWhile_name {name rest : List UInt8} (h : ∀ c ∈ name, c ≠ 0) :
    (name ++ rest).takeWhile (· ≠ 0) = name ++ rest.takeWhile (· ≠ 0) := by
  apply List.takeWhile_append_of_pos
  intro c hc
  simpa using h c hc

/-- The bytes a format does not write into a record, with the values a caller
expects there. -/
def Unwritten (slack : VEntry → List (ℕ × UInt8)) (buffer : ℕ → UInt8) (p : ℕ) (entry : VEntry) :
    Prop :=
  ∀ x ∈ slack entry, buffer (p + x.1) = x.2

/-- They hold for every entry of a list whose records lie one behind the
other. -/
def Prepared (f : RecordFormat) (slack : VEntry → List (ℕ × UInt8)) (buffer : ℕ → UInt8) :
    ℕ → List VEntry → Prop
  | _, [] => True
  | p, entry :: entries =>
      Unwritten slack buffer p entry ∧
        Prepared f slack buffer (p + (f.advance entry.nameLength).toNat) entries

/-- Records that are decoded one by one: a record is written inside its own
bytes, and it is decoded exactly when the bytes it leaves out are right. -/
structure Faithful (f : RecordFormat) (l : RecordLayout) (slack : VEntry → List (ℕ × UInt8)) :
    Prop where
  pos : ∀ entry, Named entry → 0 < (f.advance entry.nameLength).toNat
  outside : ∀ buffer p entry x, Named entry →
    x < p ∨ p + (f.advance entry.nameLength).toNat ≤ x → f.write buffer p entry x = buffer x
  record : ∀ buffer buffer' p entry, Named entry →
    (∀ x, p ≤ x → x < p + (f.advance entry.nameLength).toNat →
      buffer' x = f.write buffer p entry x) →
    (Unwritten slack buffer p entry →
      decodeRecord l buffer' p = some (dirent l entry, (f.advance entry.nameLength).toNat)) ∧
    (¬ Unwritten slack buffer p entry → ∀ n, decodeRecord l buffer' p ≠ some (dirent l entry, n))

theorem prepared_congr {f : RecordFormat} {slack : VEntry → List (ℕ × UInt8)}
    {buffer buffer' : ℕ → UInt8} :
    ∀ {entries : List VEntry} {p : ℕ}, (∀ x, p ≤ x → buffer' x = buffer x) →
      (Prepared f slack buffer' p entries ↔ Prepared f slack buffer p entries)
  | [], _, _ => Iff.rfl
  | entry :: entries, p, h => by
      have hrest : Prepared f slack buffer' (p + (f.advance entry.nameLength).toNat) entries ↔
          Prepared f slack buffer (p + (f.advance entry.nameLength).toNat) entries :=
        prepared_congr fun x hx => h x (by omega)
      have hfirst : Unwritten slack buffer' p entry ↔ Unwritten slack buffer p entry := by
        constructor
        · intro hall x hx
          rw [← h _ (Nat.le_add_right _ _)]
          exact hall x hx
        · intro hall x hx
          rw [h _ (Nat.le_add_right _ _)]
          exact hall x hx
      rw [Prepared, Prepared, hfirst, hrest]

section Faithful

variable {f : RecordFormat} {l : RecordLayout} {slack : VEntry → List (ℕ × UInt8)}

/-- Records are written behind the ones before them. -/
theorem writeRecords_outside (hf : Faithful f l slack) :
    ∀ {entries : List VEntry} {buffer : ℕ → UInt8} {p x : ℕ}, (∀ e ∈ entries, Named e) →
      (∀ e ∈ entries, 0 ≤ f.advance e.nameLength) →
      (x < p ∨ p + recordBytes f entries ≤ x) →
      writeRecords f buffer p entries x = buffer x
  | [], _, _, _, _, _, _ => rfl
  | entry :: entries, buffer, p, x, hnamed, hadv, hx => by
      have hpos := hadv entry List.mem_cons_self
      have hrest := recordBytes_nonneg fun e he => hadv e (List.mem_cons_of_mem _ he)
      rw [recordBytes_cons] at hx
      have hstep : (p : ℤ) + f.advance entry.nameLength =
          ((p + (f.advance entry.nameLength).toNat : ℕ) : ℤ) := by
        push_cast
        rw [Int.toNat_of_nonneg hpos]
      rw [writeRecords, hstep, Int.toNat_natCast,
        writeRecords_outside hf (fun e he => hnamed e (List.mem_cons_of_mem _ he))
          (fun e he => hadv e (List.mem_cons_of_mem _ he)) (by omega),
        hf.outside buffer p entry x (hnamed entry List.mem_cons_self) (by omega)]

/-- The records are decoded as the entries they were written for exactly when
the bytes that are left out were right. -/
theorem decode_writeRecords (hf : Faithful f l slack) :
    ∀ {entries : List VEntry} (buffer : ℕ → UInt8) (p : ℕ) {fuel : ℕ}, (∀ e ∈ entries, Named e) →
      (∀ e ∈ entries, 0 ≤ f.advance e.nameLength) → (recordBytes f entries).toNat < fuel →
      (decode l (writeRecords f buffer p entries) (p + (recordBytes f entries).toNat) fuel p =
          some (entries.map (dirent l)) ↔
        Prepared f slack buffer p entries)
  | [], _, _, _, _, _, hfuel => by
      obtain ⟨fuel, rfl⟩ := Nat.exists_eq_add_of_lt hfuel
      simp [decode, recordBytes, Prepared]
  | entry :: entries, buffer, p, 0, _, _, hfuel => absurd hfuel (Nat.not_lt_zero _)
  | entry :: entries, buffer, p, fuel + 1, hnamed, hadv, hfuel => by
      have hentry := hnamed entry List.mem_cons_self
      have hnamed' : ∀ e ∈ entries, Named e := fun e he => hnamed e (List.mem_cons_of_mem _ he)
      have hadv' : ∀ e ∈ entries, 0 ≤ f.advance e.nameLength :=
        fun e he => hadv e (List.mem_cons_of_mem _ he)
      have hrest := recordBytes_nonneg hadv'
      have hpos := hf.pos entry hentry
      obtain ⟨n, hn⟩ : ∃ n : ℕ, f.advance entry.nameLength = n :=
        Int.eq_ofNat_of_zero_le (hadv entry List.mem_cons_self)
      have htotal : (recordBytes f (entry :: entries)).toNat = n + (recordBytes f entries).toNat := by
        rw [recordBytes_cons, hn]
        omega
      have hstep : (p : ℤ) + f.advance entry.nameLength = ((p + n : ℕ) : ℤ) := by
        rw [hn]
        rfl
      rw [hn, Int.toNat_natCast] at hpos
      have hwrite : writeRecords f buffer p (entry :: entries) =
          writeRecords f (f.write buffer p entry) (p + n : ℕ) entries := by
        rw [writeRecords, hstep, Int.toNat_natCast]
      have hrecord := hf.record buffer (writeRecords f buffer p (entry :: entries)) p entry hentry
        (by
          intro x _ hx
          rw [hn, Int.toNat_natCast] at hx
          rw [hwrite]
          exact writeRecords_outside hf hnamed' hadv' (Or.inl hx))
      have hprepared : Prepared f slack (f.write buffer p entry) (p + n) entries ↔
          Prepared f slack buffer (p + n) entries := by
        apply prepared_congr
        intro x hx
        apply hf.outside buffer p entry x hentry
        rw [hn, Int.toNat_natCast]
        exact Or.inr hx
      rw [hn, Int.toNat_natCast] at hrecord
      rw [Prepared, hn, Int.toNat_natCast, ← hprepared, htotal]
      have hne : p ≠ p + (n + (recordBytes f entries).toNat) := by omega
      by_cases hslack : Unwritten slack buffer p entry
      · have hinner := decode_writeRecords hf (f.write buffer p entry) (p + n)
          hnamed' hadv' (show (recordBytes f entries).toNat < fuel by omega)
        rw [← hinner, hwrite, ← Nat.add_assoc]
        have hfirst := hrecord.1 hslack
        rw [hwrite] at hfirst
        have hle : ¬ p + n + (recordBytes f entries).toNat < p + n := by omega
        rw [Nat.add_assoc] at hle
        simp only [decode, hfirst, Nat.add_assoc, hne, if_false, Option.bind_eq_bind,
          Option.bind_some, hle, hslack, true_and, List.map_cons]
        cases decode l (writeRecords f (f.write buffer p entry) (p + n : ℕ) entries)
            (p + (n + (recordBytes f entries).toNat)) fuel (p + n) with
        | none => simp
        | some records => simp
      · simp only [hslack, false_and, iff_false]
        intro hall
        rw [decode, if_neg hne] at hall
        obtain ⟨record, hfirst, hall⟩ := Option.bind_eq_some_iff.mp hall
        by_cases hlong : p + (n + (recordBytes f entries).toNat) < p + record.2
        · rw [if_pos hlong] at hall
          cases hall
        · rw [if_neg hlong] at hall
          obtain ⟨records, _, hall⟩ := Option.bind_eq_some_iff.mp hall
          have heq : record.1 = dirent l entry := by
            have := Option.some.inj hall
            rw [List.map_cons] at this
            exact (List.cons.inj this).1
          apply hrecord.2 hslack record.2
          rw [hfirst, ← heq]

end Faithful

/-! ## The fields that are written -/

section Fields

variable {entry : VEntry} (buffer : ℕ → UInt8) (p length : ℕ)

theorem writeFields_outside (h : Named entry) {x : ℕ}
    (hx : x < p ∨ p + (10 + entry.name.length) ≤ x) :
    writeFields buffer p entry length x = buffer x := by
  have hlen := congrArg List.length (nameBytes_eq h)
  rw [writeFields]
  rw [writeBytes_outside, writeBytes_outside, writeBytes_outside, writeBytes_outside]
  all_goals simp only [length_leBytes, hlen]; omega

theorem writeFields_seek :
    readBytes (writeFields buffer p entry length) (p + 4) 4 = leBytes 4 entry.seekOffset := by
  have hself := readBytes_writeBytes_self (writeBytes buffer p (leBytes 4 0)) (p + 4)
    (leBytes 4 entry.seekOffset)
  rw [length_leBytes] at hself
  rw [writeFields, readBytes_writeBytes_of_disjoint, readBytes_writeBytes_of_disjoint, hself]
  all_goals omega

theorem writeFields_length :
    readBytes (writeFields buffer p entry length) (p + 8) 2 = leBytes 2 length := by
  have hself := readBytes_writeBytes_self
    (writeBytes (writeBytes buffer p (leBytes 4 0)) (p + 4) (leBytes 4 entry.seekOffset)) (p + 8)
    (leBytes 2 length)
  rw [length_leBytes] at hself
  rw [writeFields, readBytes_writeBytes_of_disjoint, hself]
  omega

theorem writeFields_name (h : Named entry) :
    readBytes (writeFields buffer p entry length) (p + 10) entry.name.length = entry.name := by
  rw [writeFields, nameBytes_eq h]
  exact readBytes_writeBytes_self _ _ _

end Fields

/-! ## The record of `sys_getdents` -/

section Getdents

variable {entry : VEntry} (buffer : ℕ → UInt8) (p : ℕ)

theorem getdents_advance (h : Named entry) :
    (getdentsFormat.advance entry.nameLength).toNat = 14 + entry.name.length := by
  have := h.short
  rw [fileMaxName] at this
  simp only [getdentsFormat, h.length]
  omega

/-- What the extension adds to the fields. -/
theorem getdents_write (h : Named entry) :
    getdentsFormat.write buffer p entry =
      writeBytes (writeBytes (writeFields buffer p entry (14 + entry.name.length))
        (p + (11 + entry.name.length)) [0]) (p + (12 + entry.name.length)) [entry.type.code] := by
  have h₁ : 12 + entry.name.length + 2 = 14 + entry.name.length := by omega
  have h₂ : p + 10 + (entry.name.length + 1) = p + (11 + entry.name.length) := by omega
  have h₃ : p + 10 + (entry.name.length + 2) = p + (12 + entry.name.length) := by omega
  simp only [getdentsFormat, h.length, h₁, h₂, h₃]

theorem getdents_outside (h : Named entry) {x : ℕ}
    (hx : x < p ∨ p + (14 + entry.name.length) ≤ x) :
    getdentsFormat.write buffer p entry x = buffer x := by
  rw [getdents_write buffer p h, writeBytes_outside, writeBytes_outside,
    writeFields_outside buffer p _ h]
  · omega
  · rw [List.length_singleton]
    omega
  · rw [List.length_singleton]
    omega

/-- The fields are read as they were written, in front of the extension. -/
theorem getdents_read (h : Named entry) {a n : ℕ} (ha : a + n ≤ p + (11 + entry.name.length)) :
    readBytes (getdentsFormat.write buffer p entry) a n =
      readBytes (writeFields buffer p entry (14 + entry.name.length)) a n := by
  rw [getdents_write buffer p h, readBytes_writeBytes_of_disjoint (Or.inl (by omega)),
    readBytes_writeBytes_of_disjoint (Or.inl ha)]

theorem writeBytes_singleton {m : ℕ → UInt8} {a : ℕ} {b : UInt8} : writeBytes m a [b] a = b :=
  @writeBytes_inside m a [b] 0 Nat.zero_lt_one

/-- The four bytes behind the name: two are written, and two are not. -/
theorem getdents_tail (h : Named entry) :
    getdentsFormat.write buffer p entry (p + (10 + entry.name.length)) =
        buffer (p + (10 + entry.name.length)) ∧
      getdentsFormat.write buffer p entry (p + (11 + entry.name.length)) = 0 ∧
      getdentsFormat.write buffer p entry (p + (12 + entry.name.length)) = entry.type.code ∧
      getdentsFormat.write buffer p entry (p + (13 + entry.name.length)) =
        buffer (p + (13 + entry.name.length)) := by
  rw [getdents_write buffer p h]
  have hone : ([0] : List UInt8).length = 1 := rfl
  refine ⟨?_, ?_, writeBytes_singleton, ?_⟩
  · rw [writeBytes_outside (Or.inl (by omega)), writeBytes_outside (Or.inl (by omega)),
      writeFields_outside buffer p _ h (Or.inr (le_refl _))]
  · rw [writeBytes_outside (Or.inl (by omega)), writeBytes_singleton]
  · rw [writeBytes_outside (Or.inr (by rw [List.length_singleton]; omega)),
      writeBytes_outside (Or.inr (by omega)),
      writeFields_outside buffer p _ h (Or.inr (by omega))]

end Getdents

/-- The terminator of the name and the type, as the layout has them. -/
def getdentsSlack (entry : VEntry) : List (ℕ × UInt8) :=
  [(10 + entry.name.length, 0), (13 + entry.name.length, entry.type.code)]

/-- What a caller reads of a record of `sys_getdents`: the byte behind the name
belongs to it unless it was null. -/
theorem decodeRecord_getdents {buffer buffer' : ℕ → UInt8} {p : ℕ} {entry : VEntry}
    (h : Named entry)
    (hsame : ∀ x, p ≤ x → x < p + (14 + entry.name.length) →
      buffer' x = getdentsFormat.write buffer p entry x) :
    decodeRecord linuxDirent buffer' p =
      some (⟨entry.seekOffset,
        entry.name ++ [buffer (p + (10 + entry.name.length))].takeWhile (· ≠ 0),
        some (buffer (p + (13 + entry.name.length)))⟩, 14 + entry.name.length) := by
  have hshort := h.short
  rw [fileMaxName] at hshort
  obtain ⟨h10, h11, h12, h13⟩ := getdents_tail buffer p h
  -- a range of the fields is read as it was written
  have hread : ∀ a n, p ≤ a → a + n ≤ p + (11 + entry.name.length) → readBytes buffer' a n =
      readBytes (writeFields buffer p entry (14 + entry.name.length)) a n := by
    intro a n ha han
    rw [← getdents_read buffer p h han]
    exact readBytes_congr fun i hi => hsame _ (by omega) (by omega)
  have hsize : linuxDirent.size buffer' p = 14 + entry.name.length := by
    simp only [linuxDirent]
    rw [hread _ _ (by omega) (by omega), writeFields_length, leValue_leBytes]
    omega
  have hseek : readBytes buffer' (p + 4) 4 = leBytes 4 entry.seekOffset := by
    rw [hread _ _ (by omega) (by omega), writeFields_seek]
  have hname : readBytes buffer' (p + 10) entry.name.length = entry.name := by
    rw [hread _ _ (by omega) (by omega), writeFields_name buffer p _ h]
  have hfield : readBytes buffer' (p + 10) (14 + entry.name.length - 1 - 10) =
      entry.name ++ [buffer (p + (10 + entry.name.length)), 0, entry.type.code] := by
    have hsplit : 14 + entry.name.length - 1 - 10 = entry.name.length + 3 := by omega
    rw [hsplit, readBytes_add, hname]
    congr 1
    have h₁ := hsame (p + (10 + entry.name.length)) (by omega) (by omega)
    have h₂ := hsame (p + (11 + entry.name.length)) (by omega) (by omega)
    have h₃ := hsame (p + (12 + entry.name.length)) (by omega) (by omega)
    rw [h10] at h₁
    rw [h11] at h₂
    rw [h12] at h₃
    have e₁ : p + 10 + entry.name.length + 0 = p + (10 + entry.name.length) := by omega
    have e₂ : p + 10 + entry.name.length + 1 = p + (11 + entry.name.length) := by omega
    have e₃ : p + 10 + entry.name.length + 2 = p + (12 + entry.name.length) := by omega
    show [buffer' (p + 10 + entry.name.length + 0), buffer' (p + 10 + entry.name.length + 1),
      buffer' (p + 10 + entry.name.length + 2)] = _
    rw [e₁, e₂, e₃, h₁, h₂, h₃]
  have htype := hsame (p + (13 + entry.name.length)) (by omega) (by omega)
  rw [h13] at htype
  rw [decodeRecord, hsize]
  simp only [linuxDirent, hfield, hseek, leValue_leBytes]
  rw [if_pos (by simp), takeWhile_name h.string]
  have hlast : p + (14 + entry.name.length - 1) = p + (13 + entry.name.length) := by omega
  have hwidth : entry.seekOffset % 2 ^ (8 * 4) = entry.seekOffset := Nat.mod_eq_of_lt h.seek
  rw [hwidth, Option.map_some, hlast, htype]
  by_cases hb : buffer (p + (10 + entry.name.length)) = 0
  · simp [hb]
  · simp [hb]

/-- A name with a byte behind it is the name when the byte is null. -/
theorem name_append_iff {name : List UInt8} {b : UInt8} :
    name ++ [b].takeWhile (· ≠ 0) = name ↔ b = 0 := by
  by_cases hb : b = 0
  · simp [hb]
  · simp [hb]

theorem getdents_faithful : Faithful getdentsFormat linuxDirent getdentsSlack where
  pos entry h := by
    rw [getdents_advance h]
    omega
  outside buffer p entry x h hx := by
    rw [getdents_advance h] at hx
    exact getdents_outside buffer p h hx
  record buffer buffer' p entry h hsame := by
    rw [getdents_advance h] at hsame ⊢
    rw [decodeRecord_getdents h hsame]
    have hslack : Unwritten getdentsSlack buffer p entry ↔
        buffer (p + (10 + entry.name.length)) = 0 ∧
          buffer (p + (13 + entry.name.length)) = entry.type.code := by
      simp [Unwritten, getdentsSlack]
    rw [hslack]
    constructor
    · rintro ⟨hnull, htype⟩
      rw [name_append_iff.mpr hnull, htype]
      rfl
    · rintro hnot n heq
      have hrecord := congrArg Prod.fst (Option.some.inj heq)
      refine hnot ⟨name_append_iff.mp (congrArg Dirent.name hrecord), ?_⟩
      exact Option.some.inj (congrArg Dirent.type hrecord)

/-! ## The record of `sys_old_readdir` -/

theorem oldReaddir_advance {entry : VEntry} (h : Named entry) :
    (oldReaddirFormat.advance entry.nameLength).toNat = 12 + entry.name.length := by
  simp only [oldReaddirFormat, h.length]
  omega

/-- The terminator of the name. -/
def oldReaddirSlack (entry : VEntry) : List (ℕ × UInt8) := [(10 + entry.name.length, 0)]

/-- What a caller reads of a record of `sys_old_readdir`, if its name ends at
all. -/
theorem decodeRecord_oldReaddir {buffer buffer' : ℕ → UInt8} {p : ℕ} {entry : VEntry}
    (h : Named entry)
    (hsame : ∀ x, p ≤ x → x < p + (12 + entry.name.length) →
      buffer' x = oldReaddirFormat.write buffer p entry x) :
    decodeRecord oldLinuxDirent buffer' p =
      if buffer (p + (10 + entry.name.length)) = 0 ∨ buffer (p + (11 + entry.name.length)) = 0 then
        some (⟨entry.seekOffset,
          entry.name ++ [buffer (p + (10 + entry.name.length))].takeWhile (· ≠ 0), none⟩,
          12 + entry.name.length)
      else none := by
  have hshort := h.short
  rw [fileMaxName] at hshort
  have hread : ∀ a n, p ≤ a → a + n ≤ p + (12 + entry.name.length) → readBytes buffer' a n =
      readBytes (writeFields buffer p entry entry.name.length) a n := by
    intro a n ha han
    rw [← h.length]
    exact readBytes_congr fun i hi => hsame _ (by omega) (by omega)
  have hsize : oldLinuxDirent.size buffer' p = 12 + entry.name.length := by
    simp only [oldLinuxDirent]
    rw [hread _ _ (by omega) (by omega), writeFields_length, leValue_leBytes]
    omega
  have hseek : readBytes buffer' (p + 4) 4 = leBytes 4 entry.seekOffset := by
    rw [hread _ _ (by omega) (by omega), writeFields_seek]
  have hname : readBytes buffer' (p + 10) entry.name.length = entry.name := by
    rw [hread _ _ (by omega) (by omega), writeFields_name buffer p _ h]
  have hfield : readBytes buffer' (p + 10) (12 + entry.name.length - 0 - 10) =
      entry.name ++
        [buffer (p + (10 + entry.name.length)), buffer (p + (11 + entry.name.length))] := by
    have hsplit : 12 + entry.name.length - 0 - 10 = entry.name.length + 2 := by omega
    rw [hsplit, readBytes_add, hname]
    congr 1
    have h₁ := hsame (p + (10 + entry.name.length)) (by omega) (by omega)
    have h₂ := hsame (p + (11 + entry.name.length)) (by omega) (by omega)
    have hwrite : oldReaddirFormat.write buffer p entry =
        writeFields buffer p entry entry.nameLength := rfl
    rw [hwrite, writeFields_outside buffer p _ h (Or.inr (by omega))] at h₁ h₂
    have e₁ : p + 10 + entry.name.length + 0 = p + (10 + entry.name.length) := by omega
    have e₂ : p + 10 + entry.name.length + 1 = p + (11 + entry.name.length) := by omega
    show [buffer' (p + 10 + entry.name.length + 0), buffer' (p + 10 + entry.name.length + 1)] = _
    rw [e₁, e₂, h₁, h₂]
  have hzero : (0 : UInt8) ∉ entry.name := fun hmem => h.string 0 hmem rfl
  have hwidth : entry.seekOffset % 2 ^ (8 * 4) = entry.seekOffset := Nat.mod_eq_of_lt h.seek
  rw [decodeRecord, hsize]
  simp only [oldLinuxDirent, hfield, hseek, leValue_leBytes, hwidth, takeWhile_name h.string]
  by_cases hb : buffer (p + (10 + entry.name.length)) = 0
  · simp [hb]
  · by_cases hb' : buffer (p + (11 + entry.name.length)) = 0
    · simp [hb, hb']
    · have hb₁ : ¬ 0 = buffer (p + (10 + entry.name.length)) := fun heq => hb heq.symm
      have hb₂ : ¬ 0 = buffer (p + (11 + entry.name.length)) := fun heq => hb' heq.symm
      simp [hb, hb', hb₁, hb₂, hzero]

theorem oldReaddir_faithful : Faithful oldReaddirFormat oldLinuxDirent oldReaddirSlack where
  pos entry h := by
    rw [oldReaddir_advance h]
    omega
  outside buffer p entry x h hx := by
    rw [oldReaddir_advance h] at hx
    exact writeFields_outside buffer p _ h (by omega)
  record buffer buffer' p entry h hsame := by
    rw [oldReaddir_advance h] at hsame ⊢
    rw [decodeRecord_oldReaddir h hsame]
    have hslack : Unwritten oldReaddirSlack buffer p entry ↔
        buffer (p + (10 + entry.name.length)) = 0 := by
      simp [Unwritten, oldReaddirSlack]
    rw [hslack]
    constructor
    · intro hnull
      rw [if_pos (Or.inl hnull), name_append_iff.mpr hnull]
      rfl
    · intro hnot n heq
      split at heq
      · have hrecord := congrArg Prod.fst (Option.some.inj heq)
        exact hnot (name_append_iff.mp (congrArg Dirent.name hrecord))
      · cases heq

/-! ## The record of `sys_getdents64` -/

theorem getdents64_advance {entry : VEntry} (h : Named entry) :
    getdents64Format.advance entry.nameLength = ((12 + entry.name.length : ℕ) : ℤ) := by
  have := h.short
  rw [fileMaxName] at this
  simp only [getdents64Format, h.length]
  congr 1
  omega

/-- A record that starts at 13 or later leaves the bytes 16 and 17 as they were,
or clears them with its inode number. -/
theorem getdents64_low_byte (buffer : ℕ → UInt8) (entry : VEntry) {q x : ℕ} (hq : 13 ≤ q)
    (hx : x ≤ 17) : getdents64Format.write buffer q entry x = buffer x ∨
      getdents64Format.write buffer q entry x = 0 := by
  have hfirst : getdents64Format.write buffer q entry x =
      writeBytes buffer q (leBytes 8 0) x := by
    simp only [getdents64Format]
    rw [writeBytes_outside, writeBytes_outside, writeBytes_outside, writeBytes_outside]
    all_goals exact Or.inl (by omega)
  rw [hfirst]
  by_cases hlow : x < q
  · exact Or.inl (writeBytes_outside (Or.inl hlow))
  · right
    obtain ⟨i, rfl⟩ := Nat.exists_eq_add_of_le (Nat.le_of_not_lt hlow)
    rw [writeBytes_inside (by rw [length_leBytes]; omega)]
    have hzero : leBytes 8 0 = List.replicate 8 0 := rfl
    rw [hzero, List.getD_eq_getElem?_getD, List.getElem?_replicate]
    split <;> rfl

theorem getdents64_low_bytes :
    ∀ {entries : List VEntry} (buffer : ℕ → UInt8) {q x : ℕ}, (∀ e ∈ entries, Named e) → 13 ≤ q →
      x ≤ 17 → writeRecords getdents64Format buffer q entries x = buffer x ∨
        writeRecords getdents64Format buffer q entries x = 0
  | [], _, _, _, _, _, _ => Or.inl rfl
  | entry :: entries, buffer, q, x, hnamed, hq, hx => by
      have hstep : (q : ℤ) + getdents64Format.advance entry.nameLength =
          ((q + (12 + entry.name.length) : ℕ) : ℤ) := by
        rw [getdents64_advance (hnamed entry List.mem_cons_self)]
        rfl
      rw [writeRecords, hstep, Int.toNat_natCast]
      rcases getdents64_low_bytes (getdents64Format.write buffer q entry)
          (fun e he => hnamed e (List.mem_cons_of_mem _ he))
          (Nat.le_trans hq (Nat.le_add_right q (12 + entry.name.length))) hx with heq | heq
      · rw [heq]
        exact getdents64_low_byte buffer entry hq hx
      · exact Or.inr heq

/-- The first record is too short for its name. -/
theorem decodeRecord_getdents64 (buffer : ℕ → UInt8) {entry : VEntry} {entries : List VEntry}
    (hnamed : ∀ e ∈ entry :: entries, Named e) (n : ℕ) :
    decodeRecord linuxDirent64 (writeRecords getdents64Format buffer 0 (entry :: entries)) 0 ≠
      some (dirent linuxDirent64 entry, n) := by
  have h := hnamed entry List.mem_cons_self
  have hshort := h.short
  have hpos := h.pos
  rw [fileMaxName] at hshort
  have hwritten : ∀ i < 2, getdents64Format.write buffer 0 entry (16 + i) =
      (leBytes 2 (12 + entry.name.length)).getD i 0 := by
    intro i hi
    simp only [getdents64Format, h.length, Nat.zero_add]
    rw [writeBytes_outside (Or.inl (by omega)), writeBytes_outside (Or.inl (by omega))]
    exact writeBytes_inside (by rw [length_leBytes]; exact hi)
  have hstep : (0 : ℤ) + getdents64Format.advance entry.nameLength =
      ((12 + entry.name.length : ℕ) : ℤ) := by
    rw [getdents64_advance h, Int.zero_add]
  have hrecords : writeRecords getdents64Format buffer 0 (entry :: entries) =
      writeRecords getdents64Format (getdents64Format.write buffer 0 entry)
        (12 + entry.name.length : ℕ) entries := by
    rw [writeRecords, hstep]
    rfl
  -- the size that is read is at most the one that was written
  have hsize : linuxDirent64.size (writeRecords getdents64Format buffer 0 (entry :: entries)) 0 ≤
      12 + entry.name.length := by
    have hlow : ∀ i < 2, (writeRecords getdents64Format buffer 0 (entry :: entries) (16 + i)).toNat ≤
        ((leBytes 2 (12 + entry.name.length)).getD i 0).toNat := by
      intro i hi
      rw [hrecords]
      rcases getdents64_low_bytes (getdents64Format.write buffer 0 entry)
          (q := 12 + entry.name.length) (x := 16 + i)
          (fun e he => hnamed e (List.mem_cons_of_mem _ he)) (by omega) (by omega) with heq | heq
      · rw [heq, hwritten i hi]
      · rw [heq]
        exact Nat.zero_le _
    have h₀ := hlow 0 (by omega)
    have h₁ := hlow 1 (by omega)
    have hvalue := leValue_leBytes 2 (12 + entry.name.length)
    have hbytes : leBytes 2 (12 + entry.name.length) =
        [(leBytes 2 (12 + entry.name.length)).getD 0 0,
          (leBytes 2 (12 + entry.name.length)).getD 1 0] := rfl
    rw [hbytes] at hvalue
    simp only [leValue] at hvalue
    show leValue [writeRecords getdents64Format buffer 0 (entry :: entries) (16 + 0),
      writeRecords getdents64Format buffer 0 (entry :: entries) (16 + 1)] ≤ _
    simp only [leValue]
    omega
  intro heq
  rw [decodeRecord] at heq
  split at heq
  · have hname := congrArg (fun r => r.1.name) (Option.some.inj heq)
    have hlen := congrArg List.length hname
    have hle := (List.takeWhile_prefix (· ≠ (0 : UInt8))
      (l := readBytes (writeRecords getdents64Format buffer 0 (entry :: entries))
        (0 + linuxDirent64.nameAt)
        (linuxDirent64.size (writeRecords getdents64Format buffer 0 (entry :: entries)) 0 -
          linuxDirent64.nameTail - linuxDirent64.nameAt))).length_le
    rw [length_readBytes] at hle
    have htail : linuxDirent64.nameTail = 0 := rfl
    have hat : linuxDirent64.nameAt = 19 := rfl
    have hdirent : (dirent linuxDirent64 entry).name.length = entry.name.length := rfl
    rw [htail, hat] at hle
    simp only [hdirent, htail, hat] at hlen
    rw [hlen] at hle
    omega
  · cases heq

/-! ## The three calls -/

/-- The records that fit end inside the buffer. -/
theorem fitting_room {f : RecordFormat} (hf : f.Sized) {room : ℤ} :
    ∀ {entries : List VEntry} {bytes : ℤ}, (∀ e ∈ entries, e.nameLength < fileMaxName) →
      fitting f room bytes entries ≠ [] →
      bytes + recordBytes f (fitting f room bytes entries) ≤ room
  | [], _, _, h => absurd rfl h
  | entry :: entries, bytes, hnames, h => by
      have henough := hf.enough _ (hnames entry List.mem_cons_self)
      rw [fitting] at h ⊢
      split at h
      · exact absurd rfl h
      next hfits =>
        rw [if_neg hfits, recordBytes_cons]
        by_cases hnil : fitting f room (bytes + f.advance entry.nameLength) entries = []
        · rw [hnil, recordBytes, List.map_nil, List.sum_nil]
          omega
        · have := fitting_room hf (fun e he => hnames e (List.mem_cons_of_mem _ he)) hnil
          omega

section Calls

variable {W : Type} {ops : ℕ → DirectoryOps W} {s : ProcessTable} {garbage : VEntry} {fd : ℕ}
  {vref : VRef} {w : W} {entries : List VEntry} {f : RecordFormat}

/-- Where nothing is consumed nothing is returned, and nothing is written. -/
theorem decodes_of_nil {l : RecordLayout} {buffer : ℕ → UInt8} {size : ℕ} {w' : W} :
    Decodes l buffer size entries
      (⟨returned 0 entries [] f, buffer, w', []⟩ : Listed W) where
  isPrefix := List.nil_prefix
  records := by
    have := returned_nil_nonpos entries f
    have hzero : (returned 0 entries [] f).toNat = 0 := Int.toNat_of_nonpos this
    simp [hzero, decode]
  bound := by
    have := returned_nil_nonpos entries f
    show returned 0 entries [] f ≤ size
    omega
  inside _ _ := rfl

/-- The records of a faithful format are read back exactly when the bytes left
out were right. -/
theorem decodes_iff_prepared {l : RecordLayout} {slack : VEntry → List (ℕ × UInt8)} (hs : f.Sized)
    (hf : Faithful f l slack) (hnamed : ∀ e ∈ entries, Named e) {buffer : ℕ → UInt8} {size : ℕ}
    {w' : W} :
    Decodes l buffer size entries
        (⟨returned 0 entries (fitting f (toInt size) 0 entries) f,
          writeRecords f buffer 0 (fitting f (toInt size) 0 entries), w',
          fitting f (toInt size) 0 entries⟩ : Listed W) ↔
      Prepared f slack buffer 0 (fitting f (toInt size) 0 entries) := by
  have hshort : ∀ e ∈ entries, e.nameLength < fileMaxName := by
    intro e he
    rw [(hnamed e he).length]
    exact (hnamed e he).short
  by_cases hnil : fitting f (toInt size) 0 entries = []
  · rw [hnil]
    exact ⟨fun _ => trivial, fun _ => decodes_of_nil⟩
  have hsub := fitting_prefix f (toInt size) 0 entries
  have hfit : ∀ e ∈ fitting f (toInt size) 0 entries, Named e :=
    fun e he => hnamed e (hsub.subset he)
  have hadv : ∀ e ∈ fitting f (toInt size) 0 entries, 0 ≤ f.advance e.nameLength := by
    intro e he
    have := hs.header _ (hshort e (hsub.subset he))
    omega
  have hroom := fitting_room hs hshort hnil
  have hdecode := decode_writeRecords hf buffer 0 hfit hadv (Nat.lt_succ_self _)
  rw [Nat.zero_add] at hdecode
  rw [← hdecode]
  constructor
  · intro h
    have := h.records
    simp only [returned_of_ne_nil entries hnil] at this
    exact this
  · intro h
    refine ⟨hsub, ?_, ?_, ?_⟩
    · simp only [returned_of_ne_nil entries hnil]
      exact h
    · have hle := toInt_le size
      simp only [returned_of_ne_nil entries hnil]
      omega
    · intro x hx
      simp only [returned_of_ne_nil entries hnil] at hx
      exact writeRecords_outside hf hfit hadv (p := 0) (Or.inr (by simpa using hx))

end Calls

/-! ## A listing of one entry -/

/-- A driver that lists what is left of a list. -/
def listingOps (_driver : ℕ) : DirectoryOps (List VEntry) where
  list _ entries :=
    match entries with
    | [] => (0, ⟨0, 0, [], .unknown⟩, [])
    | entry :: entries => (1, entry, entries)
  seek _ _ entries := (0, entries)

/-- The directory `a`. -/
def entryA : VEntry := ⟨0, 1, [97], .dir⟩

theorem entryA_named : ∀ e ∈ [entryA], Named e := by
  intro e he
  rw [List.mem_singleton.mp he]
  exact ⟨by decide, by decide, rfl, List.forall_mem_singleton.mpr (by decide), by decide⟩

theorem entryA_listed :
    Lists listingOps ⟨0, 0, some 1, 0⟩ ⟨0, 0, [], .unknown⟩ [entryA] [entryA] :=
  .more (w := [entryA]) (by decide) (.done rfl)

end Neos.Syscall
