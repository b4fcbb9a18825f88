import I2util.Library.Scan

/-!
Characters and C strings, as the readers and writers of `conf.c` use them.

A stream is the list of bytes still to be read. A C string is the list of bytes
before its terminating NUL, so `cstr` turns a memory block into the string a
pointer to it denotes.
-/

namespace I2util

abbrev nl : UInt8 := 10
abbrev tab : UInt8 := 9
abbrev blank : UInt8 := 32
abbrev hash : UInt8 := 35
abbrev backslash : UInt8 := 92

/-- A property of every byte of a text is decided along the text. -/
instance forallMemDecidable (s : List UInt8) (p : UInt8 → Prop) [DecidablePred p] :
    Decidable (∀ c ∈ s, p c) :=
  List.decidableBAll p s

/-- `isspace` in the C locale; the same characters as `I2WSPACESET`. -/
def isspace (c : UInt8) : Bool :=
  c = 9 || c = 10 || c = 11 || c = 12 || c = 13 || c = 32

def tolower (c : UInt8) : UInt8 := if 65 ≤ c ∧ c ≤ 90 then c + 32 else c

def isdigit (c : UInt8) : Bool := 48 ≤ c && c ≤ 57

def digitsValue (s : List UInt8) : ℕ := s.foldl (fun n c => 10 * n + (c.toNat - 48)) 0

/-- `"%u"`. -/
def decimal (n : ℕ) : List UInt8 := (Nat.toDigits 10 n).map fun c => c.toNat.toUInt8

def sign : List UInt8 → Bool × List UInt8
  | 45 :: s => (true, s)
  | 43 :: s => (false, s)
  | s => (false, s)

def ascii (s : String) : List UInt8 := s.toList.map fun c => c.toNat.toUInt8

/-- The C string at a block of memory: the bytes before the first NUL. -/
def cstr (s : List UInt8) : List UInt8 := s.takeWhile (· ≠ 0)

/-- `strcspn(s, I2WSPACESET)`. -/
def strcspn (s : List UInt8) : ℕ := (s.takeWhile fun c => !isspace c).length

def strncmp : List UInt8 → List UInt8 → ℕ → ℤ
  | _, _, 0 => 0
  | [], [], _ + 1 => 0
  | [], b :: _, _ + 1 => -(b.toNat : ℤ)
  | a :: _, [], _ + 1 => a.toNat
  | a :: as, b :: bs, n + 1 =>
      if a = b then strncmp as bs n else (a.toNat : ℤ) - b.toNat

/-- `strtok` with the white space set: the next token and what later calls go
on with, `none` when only delimiters are left. -/
def strtok (s : List UInt8) : Option (List UInt8 × List UInt8) :=
  match s.dropWhile isspace with
  | [] => none
  | c :: t =>
      some ((c :: t).takeWhile (fun c => !isspace c),
        ((c :: t).dropWhile fun c => !isspace c).tail)

/-- `fprintf` of a text: the value returned and what is printed. A length that
is no `int` is an error. -/
def fprintf (text : List UInt8) : ℤ × List UInt8 :=
  if text.length ≤ 2147483647 then (text.length, text) else (-1, [])

abbrev I2MAXIDENTITYLEN : ℕ := 16
abbrev I2KEYLEN : ℕ := 16

inductive ErrMsg
  | invalidUseOfBackslash
  | leadingSpacesNotAllowed (row : ℤ)
  | invalidIdentityTooLong
  | invalidKeyLength
  | invalidCharsAfterKey
  | invalidKeyNotHex
  | invalidIdentityName
  deriving DecidableEq

def ErrMsg.text : ErrMsg → String
  | .invalidUseOfBackslash => "Invalid use of '\\'"
  | .leadingSpacesNotAllowed row => "Leading spaces not allowed: line " ++ toString row
  | .invalidIdentityTooLong => "Invalid identity name (too long)"
  | .invalidKeyLength => "Invalid key length"
  | .invalidCharsAfterKey => "Invalid chars after key"
  | .invalidKeyNotHex => "Invalid key: not hex?"
  | .invalidIdentityName => "I2WriteKeyLine(): Invalid identity name"

@[simp] theorem hash_ne_nl : hash ≠ nl := by decide
theorem hash_ne_backslash : hash ≠ backslash := by decide
@[simp] theorem tab_ne_nl : tab ≠ nl := by decide
@[simp] theorem backslash_ne_nl : backslash ≠ nl := by decide

@[simp] theorem isspace_nl : isspace nl = true := rfl
@[simp] theorem isspace_tab : isspace tab = true := rfl
@[simp] theorem isspace_blank : isspace blank = true := rfl
@[simp] theorem isspace_hash : isspace hash = false := rfl
@[simp] theorem isspace_backslash : isspace backslash = false := rfl
@[simp] theorem isspace_zero : isspace 0 = false := rfl

theorem ne_nl_of_not_isspace {c : UInt8} (h : isspace c = false) : c ≠ nl := by
  rintro rfl
  simp at h

theorem cstr_no_nul (s : List UInt8) : (0 : UInt8) ∉ cstr s := fun h => by
  simpa using List.mem_takeWhile_imp h

theorem cstr_of_not_mem {s : List UInt8} (h : (0 : UInt8) ∉ s) : cstr s = s := by
  apply Scan.takeWhile_of_all
  intro c hc
  simpa using fun h0 : c = 0 => h (h0 ▸ hc)

theorem cstr_append {a : List UInt8} (h : (0 : UInt8) ∉ a) (b : List UInt8) :
    cstr (a ++ b) = a ++ cstr b := by
  apply List.takeWhile_append_of_pos
  intro c hc
  simpa using fun h0 : c = 0 => h (h0 ▸ hc)

theorem cstr_append_nul {a : List UInt8} (h : (0 : UInt8) ∉ a) (b : List UInt8) :
    cstr (a ++ 0 :: b) = a := by
  rw [cstr_append h]
  exact List.append_nil a

theorem exists_eq_cstr_append {s : List UInt8} (h : (0 : UInt8) ∈ s) :
    ∃ rest, s = cstr s ++ 0 :: rest := by
  obtain ⟨a, b, rfl, ha⟩ := List.eq_append_cons_of_mem h
  exact ⟨b, by rw [cstr_append_nul ha]⟩

theorem cstr_append_of_mem {a : List UInt8} (h : (0 : UInt8) ∈ a) (b : List UInt8) :
    cstr (a ++ b) = cstr a := by
  obtain ⟨p, q, rfl, hp⟩ := List.eq_append_cons_of_mem h
  rw [List.append_assoc, List.cons_append, cstr_append_nul hp, cstr_append_nul hp]

theorem cstr_append_end (a b : List UInt8) : cstr (a ++ 0 :: b) = cstr a := by
  by_cases ha : 0 ∈ a
  · exact cstr_append_of_mem ha _
  · rw [cstr_append_nul ha, cstr_of_not_mem ha]

theorem cstr_length_lt {s : List UInt8} (h : (0 : UInt8) ∈ s) : (cstr s).length < s.length := by
  obtain ⟨a, b, rfl, ha⟩ := List.eq_append_cons_of_mem h
  rw [cstr_append_nul ha, List.length_append, List.length_cons]
  omega

/-- The prefix `strcspn` measures. -/
theorem take_strcspn (s : List UInt8) :
    s.take (strcspn s) = s.takeWhile fun c => !isspace c :=
  (List.prefix_iff_eq_take.mp (List.takeWhile_prefix _)).symm

/-- On strings, `strncmp` compares the first `n` characters. -/
theorem strncmp_eq_zero {a b : List UInt8} (ha : (0 : UInt8) ∉ a)
    (hb : (0 : UInt8) ∉ b) (n : ℕ) : strncmp a b n = 0 ↔ a.take n = b.take n := by
  induction a, b, n using strncmp.induct with
  | case1 a b => simp [strncmp]
  | case2 n => simp [strncmp]
  | case3 b bs n =>
      have hb0 : b ≠ 0 := fun h => hb (by simp [h])
      simpa [strncmp, ← UInt8.toNat_inj] using hb0
  | case4 a as n =>
      have ha0 : a ≠ 0 := fun h => ha (by simp [h])
      simpa [strncmp, ← UInt8.toNat_inj] using ha0
  | case5 n a as bs ih =>
      have ih := ih (fun h => ha (by simp [h])) fun h => hb (by simp [h])
      simpa [strncmp] using ih
  | case6 a as b bs n hne =>
      have hval : a.toNat ≠ b.toNat := fun h => hne (UInt8.toNat_inj.mp h)
      simp only [strncmp, hne, if_false, List.take_succ_cons, List.cons.injEq,
        false_and, iff_false]
      omega

end I2util
