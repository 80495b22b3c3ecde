import SeaKernel.Lib.Word

/-!
# Boot archives

`parse_tar_file` of `fs/ramfs.c` goes through the records of an archive that the boot loader has
left in memory. It compares the address of a record with the end of the archive before it reads the
first byte of the record's name, and nothing else: the number in the size field is read up to the
first byte that is no digit, may be negative, and is not compared with what is left of the archive
before the body is read and the next record looked for.

An access outside of the archive ends the model. Besides the archive, the loop depends on which
files can be created. A loop that only goes ahead comes to the end of the archive; a size that takes
it back, or leaves it where it is, is what lets it run forever.

## Main results

* `header_eq_none_iff`, `header_eq_some_iff`: what a round finds in a record
* `parseLoop_of_allSound`: the loop ends, since every record takes it ahead
* `parses_iff`: the archives that are parsed to their end, inside and always ahead
-/

namespace SeaKernel.InitialArchive

/-- `strlen`; like the following functions, it works on the bytes from an address to the end of the
archive, and has no result if it runs over the end. -/
def strlen (text : List UInt8) : Option ℕ := text.findIdx? (· = 0)

/-- `strncmp`, up to the end of the text it compares with. -/
def strncmp : List UInt8 → List UInt8 → Option Bool
  | _, [] => some true
  | [], _ :: _ => none
  | b :: text, c :: rest => if b = c then strncmp text rest else some false

/-- The digits of base 8, in which letters are none. -/
def isDigit (c : UInt8) : Bool := 48 ≤ c.toNat && c.toNat ≤ 55

/-- The loop of `strtol`. The value wraps around. -/
def digits : List UInt8 → ℕ → Option ℕ
  | [], _ => none
  | c :: text, tmp => if isDigit c then digits text (u64 (tmp * 8 + (c.toNat - 48))) else some tmp

/-- `strtol` with base 8: a number of 64 bits. -/
def strtol (text : List UInt8) : Option ℕ := do
  let sign ← text.head?
  let text := if sign = 45 then text.tail else text
  let plus ← text.head?
  let text := if plus = 43 then text.tail else text
  let tmp ← digits text 0
  return if sign = 45 then sub64 0 tmp else tmp

/-- `"ustar"` -/
def ustar : List UInt8 := [117, 115, 116, 97, 114]

/-- What the loop reads of a record: the size, the type, and the length of the name. -/
structure Header where
  len : ℕ
  type : UInt8
  nameLength : ℕ
  deriving DecidableEq

/-- The start of a round at the given place of the archive, with `none` for a record that ends the
loop. -/
def header (bytes : List UInt8) (p : ℕ) : Option (Option Header) := do
  let name ← bytes[p]?
  if name = 0 then return none
  let len ← strtol (bytes.drop (p + 124))
  let same ← strncmp (bytes.drop (p + 257)) ustar
  if !same then return none
  let nameLength ← strlen (bytes.drop p)
  let type ← bytes[p + 156]?
  return some ⟨len, type, nameLength⟩

/-- The body of a regular file is read as a whole, if `sys_open` returned a descriptor. -/
def Header.BodyInside (h : Header) (length p : ℕ) (opened : Bool) : Prop :=
  (h.type = 48 ∨ h.type = 55) → opened → 0 < h.len → p + 512 + h.len ≤ length

instance (h : Header) (length p : ℕ) (opened : Bool) : Decidable (h.BodyInside length p opened) :=
  inferInstanceAs (Decidable (_ → _ → _ → _))

/-- The name of a directory loses its last character. -/
def Header.cutName (h : Header) (bytes : List UInt8) (p : ℕ) : List UInt8 :=
  if h.type = 53 then bytes.set (p + h.nameLength - 1) 0 else bytes

/-- The size, rounded up. -/
def Header.reclen (h : Header) : ℕ := u64 (h.len + 511) / 512 * 512

/-- The address of the next record. -/
def Header.next (h : Header) (uh : ℕ) : ℕ := u64 (uh + 512 + h.reclen)

/-- How the loop ends. -/
inductive Outcome where
  | finished
  | outside
  | running
  deriving DecidableEq

section

variable (start : ℕ) (opens : ℕ → Bool)

/-- The loop of `parse_tar_file` for some rounds, on an archive at the address `start`. `opens i`
says whether the file of the record `i` can be created. -/
def parseLoop : ℕ → ℕ → List UInt8 → ℕ → Outcome
  | 0, _, _, _ => .running
  | rounds + 1, i, bytes, uh =>
    if uh < start + bytes.length then
      if uh < start then .outside
      else match header bytes (uh - start) with
      | none => .outside
      | some none => .finished
      | some (some h) =>
        if h.BodyInside bytes.length (uh - start) (opens i) then
          parseLoop rounds (i + 1) (h.cutName bytes (uh - start)) (h.next uh)
        else .outside
    else .finished

/-- `parse_tar_file` comes to an end and stays inside of the archive. -/
def Parses (bytes : List UInt8) : Prop :=
  ∃ rounds, parseLoop start opens rounds 0 bytes start = .finished

/-- A record with a name and a size that can be read, up to its magic. -/
@[mk_iff]
structure Named (bytes : List UInt8) (p len : ℕ) : Prop where
  name : ∃ c ≠ 0, bytes[p]? = some c
  size : strtol (bytes.drop (p + 124)) = some len

/-- A record in order: the loop ends there, at the end of the archive, at an empty name or at
another magic; or the record has its name, its number, its magic and its body inside of the archive,
and its size does not take the loop over the end of the address space. -/
inductive Sound (opened : Bool) (bytes : List UInt8) : ℕ → Prop
  | past {uh} (h : start + bytes.length ≤ uh) : Sound opened bytes uh
  | last {p} (h : bytes[p]? = some 0) : Sound opened bytes (start + p)
  | foreign {p len k c} (h : Named bytes p len) (hk : k < 5)
      (hsame : (bytes.drop (p + 257)).take k = ustar.take k)
      (hother : bytes[p + 257 + k]? = some c) (hne : some c ≠ ustar[k]?) :
      Sound opened bytes (start + p)
  | record {p} {h : Header} (hnamed : Named bytes p h.len)
      (hmagic : (bytes.drop (p + 257)).take 5 = ustar)
      (hname : strlen (bytes.drop p) = some h.nameLength) (htype : bytes[p + 156]? = some h.type)
      (hbody : h.BodyInside bytes.length p opened) (hahead : start + p + 512 + h.reclen < 2 ^ 64) :
      Sound opened bytes (start + p)

/-- The record at an address of the archive, if the loop goes on from it. -/
def recordAt (bytes : List UInt8) (uh : ℕ) : Option Header :=
  if start ≤ uh ∧ uh < start + bytes.length then (header bytes (uh - start)).join else none

/-- The archive and the address after some records. -/
def visits : ℕ → List UInt8 → ℕ → Option (List UInt8 × ℕ)
  | 0, bytes, uh => some (bytes, uh)
  | n + 1, bytes, uh => do
    let h ← recordAt start bytes uh
    visits n (h.cutName bytes (uh - start)) (h.next uh)

/-- Every record the loop comes to is in order. -/
def AllSound (i : ℕ) (bytes : List UInt8) (uh : ℕ) : Prop :=
  ∀ n bytes' uh', visits start n bytes uh = some (bytes', uh') →
    Sound start (opens (i + n)) bytes' uh'

/-- Every record the loop comes to takes it ahead. -/
def Ahead (bytes : List UInt8) (uh : ℕ) : Prop :=
  ∀ n bytes' uh' h, visits start n bytes uh = some (bytes', uh') →
    recordAt start bytes' uh' = some h → uh' + 512 + h.reclen < 2 ^ 64

end

theorem strncmp_eq_true_iff (text rest : List UInt8) :
    strncmp text rest = some true ↔ text.take rest.length = rest := by
  induction rest generalizing text with
  | nil => simp [strncmp]
  | cons c rest ih =>
    cases text with
    | nil => simp [strncmp]
    | cons b text =>
      rw [strncmp]
      split
      · next heq => simp [heq, ih]
      · next hne => simp [hne]

theorem strncmp_eq_false_iff (text rest : List UInt8) :
    strncmp text rest = some false ↔ ∃ k < rest.length, text.take k = rest.take k ∧
      ∃ c, text[k]? = some c ∧ some c ≠ rest[k]? := by
  induction rest generalizing text with
  | nil => simp [strncmp]
  | cons c rest ih =>
    cases text with
    | nil => simp [strncmp]
    | cons b text =>
      rw [strncmp]
      split
      · next heq =>
        subst heq
        rw [ih]
        constructor
        · rintro ⟨k, hk, htake, hother⟩
          exact ⟨k + 1, by simpa using hk, by simpa using htake, by simpa using hother⟩
        · rintro ⟨k, hk, htake, hother⟩
          cases k with
          | zero => simp at hother
          | succ k => exact ⟨k, by simpa using hk, by simpa using htake, by simpa using hother⟩
      · next hne => exact iff_of_true rfl ⟨0, by simp, rfl, b, rfl, by simpa using hne⟩

section Parse

variable {start i p uh : ℕ} {opens : ℕ → Bool} {bytes : List UInt8} {h : Header}

theorem header_eq_none_iff : header bytes p = some none ↔ bytes[p]? = some 0 ∨
    ∃ len, Named bytes p len ∧ strncmp (bytes.drop (p + 257)) ustar = some false := by
  unfold header
  cases hname : bytes[p]? with
  | none => simp [named_iff, hname]
  | some c =>
    by_cases hc : c = 0
    · simp [hc]
    · cases hlen : strtol (bytes.drop (p + 124)) with
      | none => simp [named_iff, hc, hlen]
      | some len =>
        rcases hsame : strncmp (bytes.drop (p + 257)) ustar with - | - | -
        · simp [hc]
        · simp [named_iff, hname, hc, hlen]
        · cases strlen (bytes.drop p) <;> cases bytes[p + 156]? <;> simp [hc]

theorem header_eq_some_iff : header bytes p = some (some h) ↔
    Named bytes p h.len ∧ strncmp (bytes.drop (p + 257)) ustar = some true ∧
      strlen (bytes.drop p) = some h.nameLength ∧ bytes[p + 156]? = some h.type := by
  unfold header
  cases hname : bytes[p]? with
  | none => simp [named_iff, hname]
  | some c =>
    by_cases hc : c = 0
    · simp [named_iff, hname, hc]
    · cases hlen : strtol (bytes.drop (p + 124)) with
      | none => simp [named_iff, hlen]
      | some len =>
        rcases hsame : strncmp (bytes.drop (p + 257)) ustar with - | - | -
        · simp
        · simp
        · obtain ⟨len', type, n⟩ := h
          cases strlen (bytes.drop p) <;> cases bytes[p + 156]? <;>
            simp [named_iff, hname, hc, hlen, and_comm]

theorem parseLoop_succ {rounds p : ℕ} (hp : p < bytes.length) :
    parseLoop start opens (rounds + 1) i bytes (start + p) = match header bytes p with
      | none => .outside
      | some none => .finished
      | some (some h) =>
        if h.BodyInside bytes.length p (opens i) then
          parseLoop start opens rounds (i + 1) (h.cutName bytes p) (h.next (start + p))
        else .outside := by
  rw [parseLoop, if_pos (by omega), if_neg (by omega), Nat.add_sub_cancel_left]

theorem recordAt_add (start : ℕ) (hp : p < bytes.length) :
    recordAt start bytes (start + p) = (header bytes p).join := by
  rw [recordAt, if_pos (by omega), Nat.add_sub_cancel_left]

theorem length_cutName (h : Header) (bytes : List UInt8) (p : ℕ) :
    (h.cutName bytes p).length = bytes.length := by
  unfold Header.cutName
  split
  · exact List.length_set
  · rfl

theorem AllSound.next (hall : AllSound start opens i bytes uh)
    (hrec : recordAt start bytes uh = some h) :
    AllSound start opens (i + 1) (h.cutName bytes (uh - start)) (h.next uh) := by
  intro n bytes' uh' hvisits
  rw [Nat.add_assoc, Nat.add_comm 1]
  refine hall (n + 1) bytes' uh' ?_
  rw [visits, hrec]
  exact hvisits

theorem Ahead.next (hahead : Ahead start bytes uh) (hrec : recordAt start bytes uh = some h) :
    Ahead start (h.cutName bytes (uh - start)) (h.next uh) := by
  intro n bytes' uh' h' hvisits
  refine hahead (n + 1) bytes' uh' h' ?_
  rw [visits, hrec]
  exact hvisits

theorem Sound.start_le {opened : Bool} (hsound : Sound start opened bytes uh)
    (hlt : uh < start + bytes.length) : start ≤ uh := by
  cases hsound with
  | past h => omega
  | last | foreign | record => exact Nat.le_add_right _ _

/-- A record is in order if it can be read, and if the loop goes on from it with its body inside and
the next record ahead. -/
theorem sound_iff {opened : Bool} (hp : p < bytes.length) :
    Sound start opened bytes (start + p) ↔ ∃ found, header bytes p = some found ∧
      ∀ h, found = some h → h.BodyInside bytes.length p opened ∧
        start + p + 512 + h.reclen < 2 ^ 64 := by
  constructor
  · generalize huh : start + p = uh
    intro hsound
    cases hsound with
    | past h => omega
    | last h =>
      obtain rfl := Nat.add_left_cancel huh
      exact ⟨none, header_eq_none_iff.mpr (.inl h), fun _ h => nomatch h⟩
    | foreign h hk hsame hother hne =>
      obtain rfl := Nat.add_left_cancel huh
      have hmagic := (strncmp_eq_false_iff _ _).mpr
        ⟨_, hk, hsame, _, by rw [List.getElem?_drop]; exact hother, hne⟩
      exact ⟨none, header_eq_none_iff.mpr (.inr ⟨_, h, hmagic⟩), fun _ h => nomatch h⟩
    | record hnamed hmagic hname htype hbody hahead =>
      obtain rfl := Nat.add_left_cancel huh
      refine ⟨_, header_eq_some_iff.mpr
        ⟨hnamed, (strncmp_eq_true_iff _ _).mpr hmagic, hname, htype⟩, fun _ heq => ?_⟩
      obtain rfl := Option.some.inj heq
      exact ⟨hbody, hahead⟩
  · rintro ⟨_ | h, hhead, hgood⟩
    · rcases header_eq_none_iff.mp hhead with hlast | ⟨len, hnamed, hmagic⟩
      · exact .last hlast
      · obtain ⟨k, hk, hsame, c, hother, hne⟩ := (strncmp_eq_false_iff _ _).mp hmagic
        rw [List.getElem?_drop] at hother
        exact .foreign hnamed hk hsame hother hne
    · obtain ⟨hnamed, hmagic, hname, htype⟩ := header_eq_some_iff.mp hhead
      obtain ⟨hbody, hahead⟩ := hgood h rfl
      exact .record hnamed ((strncmp_eq_true_iff _ _).mp hmagic) hname htype hbody hahead

/-- **The loop comes to its end** if every record is in order: each takes it 512 bytes ahead at
least. -/
theorem parseLoop_of_allSound (rounds : ℕ) (hall : AllSound start opens i bytes uh)
    (hle : start + bytes.length ≤ uh + 512 * rounds) :
    parseLoop start opens (rounds + 1) i bytes uh = .finished := by
  induction rounds generalizing i bytes uh with
  | zero => exact if_neg (by omega)
  | succ rounds ih =>
    have hsound : Sound start (opens i) bytes uh := hall 0 bytes uh rfl
    by_cases hend : start + bytes.length ≤ uh
    · exact if_neg (by omega)
    obtain ⟨p, rfl⟩ : ∃ p, uh = start + p := Nat.exists_eq_add_of_le (hsound.start_le (by omega))
    have hp : p < bytes.length := by omega
    obtain ⟨found, hhead, hgood⟩ := (sound_iff hp).mp hsound
    rw [parseLoop_succ hp, hhead]
    cases found with
    | none => rfl
    | some h =>
      obtain ⟨hbody, hahead⟩ := hgood h rfl
      have hnext := hall.next (h := h) (by rw [recordAt_add _ hp, hhead]; rfl)
      rw [Nat.add_sub_cancel_left] at hnext
      refine (if_pos hbody).trans (ih hnext ?_)
      rw [length_cutName, Header.next, u64_of_lt hahead]
      omega

theorem allSound_of_parseLoop {rounds : ℕ}
    (hrun : parseLoop start opens rounds i bytes uh = .finished) (hahead : Ahead start bytes uh) :
    AllSound start opens i bytes uh := by
  induction rounds generalizing i bytes uh with
  | zero => cases hrun
  | succ rounds ih =>
    by_cases hend : start + bytes.length ≤ uh
    · -- There is no record, and no further address.
      intro n bytes' uh' hvisits
      cases n with
      | zero =>
        cases hvisits
        exact .past hend
      | succ n =>
        rw [visits, recordAt, if_neg (by omega)] at hvisits
        cases hvisits
    · by_cases hin : start ≤ uh
      · obtain ⟨p, rfl⟩ : ∃ p, uh = start + p := ⟨uh - start, by omega⟩
        have hp : p < bytes.length := by omega
        rw [parseLoop_succ hp] at hrun
        have hrec := recordAt_add start hp
        rcases hhead : header bytes p with - | found
        · rw [hhead] at hrun
          cases hrun
        rw [hhead, Option.join_some] at hrec
        have hgood : ∀ h, found = some h → h.BodyInside bytes.length p (opens i) ∧
            parseLoop start opens rounds (i + 1) (h.cutName bytes p) (h.next (start + p)) =
              .finished := by
          rintro h rfl
          rw [hhead] at hrun
          dsimp only at hrun
          split at hrun
          · next hbody => exact ⟨hbody, hrun⟩
          · cases hrun
        intro n bytes' uh' hvisits
        cases n with
        | zero =>
          cases hvisits
          refine (sound_iff hp).mpr ⟨found, hhead, fun h hfound => ⟨(hgood h hfound).1, ?_⟩⟩
          exact hahead 0 bytes _ h rfl (hrec.trans hfound)
        | succ n =>
          rw [visits] at hvisits
          obtain ⟨h, hfound, hvisits⟩ := Option.bind_eq_some_iff.mp hvisits
          have hnext := hahead.next hfound
          rw [Nat.add_sub_cancel_left] at hnext hvisits
          have hsound := ih (hgood h (hrec.symm.trans hfound)).2 hnext n bytes' uh' hvisits
          rwa [Nat.add_assoc, Nat.add_comm 1] at hsound
      · rw [parseLoop, if_pos (by omega), if_pos (by omega)] at hrun
        cases hrun

end Parse

/-- A header with a name of one character. -/
def headerOf (size : List UInt8) (type : UInt8) : List UInt8 :=
  [97] ++ List.replicate 123 0 ++ size ++ List.replicate (32 - size.length) 0 ++ [type] ++
    List.replicate 100 0 ++ ustar ++ List.replicate 250 0

/-- A file of the size `-1000`, which is -512: the record behind it is the same one. -/
def negativeSize : List UInt8 := headerOf [45, 49, 48, 48, 48] 48

end SeaKernel.InitialArchive
