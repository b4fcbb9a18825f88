import I2util.Conf.Text

/-!
C strings in arrays of a fixed size, and the functions of the C library that
`addr.c` reads and writes them with.
-/

namespace I2util

/-- An array of characters, up to its first NUL. There is no NUL if the characters
fill the array. -/
structure CArray (n : ℕ) where
  text : List UInt8
  fits : text.length ≤ n
  deriving DecidableEq

def strncpy (s : List UInt8) (n : ℕ) : CArray n where
  text := s.take n
  fits := by
    rw [List.length_take]
    exact Nat.min_le_left _ _

namespace CArray

variable {n : ℕ}

/-- The array read as a C string, which has to end inside it. -/
def str (a : CArray n) : Option (List UInt8) := if a.text.length < n then some a.text else none

@[simp] theorem strncpy_text (a : CArray n) : strncpy a.text n = a := by
  obtain ⟨text, fits⟩ := a
  rw [strncpy]
  congr 1
  exact List.take_of_length_le fits

end CArray

/-- `strchr`: the text in front of the first `c` and behind it, `none` inside where
there is no `c`. Without a NUL at its end the text must not be read to its end. -/
def strchr (ends : Bool) (s : List UInt8) (c : UInt8) :
    Option (Option (List UInt8 × List UInt8)) :=
  if c ∈ s then some (some (s.takeWhile (· ≠ c), (s.dropWhile (· ≠ c)).tail))
  else if ends then some none
  else none

/-- `strtol` with the base 10, for a `long` of 64 bits: the number and the rest of the
text, which is the whole text where there is no number. -/
def strtol (s : List UInt8) : ℤ × List UInt8 :=
  let (negative, t) := sign (s.dropWhile isspace)
  let digits := t.takeWhile isdigit
  if digits = [] then (0, s)
  else
    let v : ℤ := if negative then -(digitsValue digits : ℤ) else digitsValue digits
    (max (-9223372036854775808) (min 9223372036854775807 v), t.dropWhile isdigit)

/-- The port that a text stands for, as `I2AddrByNode` and `_I2AddrSetPort` read it:
the number is converted to an `int` of 32 bits. -/
def readPort (pptr : List UInt8) : Option UInt16 :=
  let (v, tstr) := strtol pptr
  let tint := v.bmod 4294967296
  if tstr = pptr ∨ tint < 0 ∨ 0xffff < tint then none else some (UInt16.ofNat tint.toNat)

/-! ### Numerals -/

def numeral (s : List UInt8) : Option UInt16 :=
  if s ≠ [] ∧ s.all isdigit ∧ digitsValue s ≤ 0xffff then some (UInt16.ofNat (digitsValue s))
  else none

theorem digit_byte {c : Char} (h : c.isDigit) :
    (c.toNat.toUInt8).toNat = c.toNat ∧ 48 ≤ c.toNat ∧ c.toNat ≤ 57 := by
  obtain ⟨hlow, hhigh⟩ := Char.isDigit_iff_toNat.mp h
  have h0 : '0'.toNat = 48 := rfl
  have h9 : '9'.toNat = 57 := rfl
  rw [h0] at hlow
  rw [h9] at hhigh
  refine ⟨?_, hlow, hhigh⟩
  show (UInt8.ofNat c.toNat).toNat = c.toNat
  exact UInt8.toNat_ofNat_of_lt' (by show c.toNat < 256; omega)

theorem decimal_digits (n : ℕ) : (decimal n).all isdigit := by
  rw [decimal, List.all_map, List.all_eq_true]
  intro c hc
  obtain ⟨hbyte, hlow, hhigh⟩ := digit_byte
    (Nat.isDigit_of_mem_toDigits (by decide) (by decide) hc : c.isDigit = true)
  simp only [Function.comp_apply, isdigit, Bool.and_eq_true, decide_eq_true_eq,
    UInt8.le_iff_toNat_le, hbyte]
  exact ⟨hlow, hhigh⟩

theorem decimal_ne_nil (n : ℕ) : decimal n ≠ [] := by
  rw [decimal, ne_eq, List.map_eq_nil_iff]
  exact Nat.toDigits_ne_nil

theorem digitsValue_decimal (n : ℕ) : digitsValue (decimal n) = n := by
  have hfold : ∀ (cs : List Char) (m : ℕ), (∀ c ∈ cs, c.isDigit) →
      (cs.map fun c => c.toNat.toUInt8).foldl (fun n c => 10 * n + (c.toNat - 48)) m =
        Nat.ofDigitChars 10 cs m := by
    intro cs
    induction cs with
    | nil => intro m _; simp
    | cons c cs ih =>
        intro m hcs
        have hc := (digit_byte (hcs c List.mem_cons_self)).1
        rw [List.map_cons, List.foldl_cons, Nat.ofDigitChars_cons, hc]
        exact ih _ fun d hd => hcs d (List.mem_cons_of_mem c hd)
  rw [digitsValue, decimal, hfold _ _ fun c hc =>
    Nat.isDigit_of_mem_toDigits (by decide) (by decide) hc]
  exact Nat.ofDigitChars_ten_toDigits

theorem numeral_decimal (p : UInt16) : numeral (decimal p.toNat) = some p := by
  have hp := p.toNat_lt
  rw [numeral, digitsValue_decimal, if_pos ⟨decimal_ne_nil _, decimal_digits _, by omega⟩,
    UInt16.ofNat_toNat]

theorem readPort_numeral {s : List UInt8} {p : UInt16} (h : numeral s = some p) :
    readPort s = some p := by
  rw [numeral] at h
  split at h
  · rename_i hs
    obtain ⟨hne, hdigits, hsmall⟩ := hs
    have hdigits' := List.all_eq_true.mp hdigits
    cases s with
    | nil => exact absurd rfl hne
    | cons c s =>
        have hc := hdigits' c List.mem_cons_self
        obtain ⟨hlow, hhigh⟩ : 48 ≤ c.toNat ∧ c.toNat ≤ 57 := by
          simpa [isdigit, UInt8.le_iff_toNat_le] using hc
        have hbyte : ∀ d : UInt8, c = d → d.toNat < 48 → False := by
          rintro d rfl hd
          omega
        have hspace : isspace c = false := by
          simp only [isspace, Bool.or_eq_false_iff, decide_eq_false_iff_not]
          refine ⟨⟨⟨⟨⟨?_, ?_⟩, ?_⟩, ?_⟩, ?_⟩, ?_⟩ <;> exact fun h => hbyte _ h (by decide)
        have hdrop : (c :: s).dropWhile isspace = c :: s := by
          rw [List.dropWhile_cons, hspace, if_neg (by decide)]
        have hsign : sign (c :: s) = (false, c :: s) := by
          rw [sign]
          · exact fun t h => hbyte 45 (List.cons.inj h).1 (by decide)
          · exact fun t h => hbyte 43 (List.cons.inj h).1 (by decide)
        have htake : (c :: s).takeWhile isdigit = c :: s := List.takeWhile_eq_self_iff.mpr hdigits'
        have hrest : (c :: s).dropWhile isdigit = [] := List.dropWhile_eq_nil_iff.mpr hdigits'
        have hstrtol : strtol (c :: s) = ((digitsValue (c :: s) : ℤ), []) := by
          rw [strtol, hdrop, hsign]
          simp only [htake, hrest, reduceCtorEq, if_false]
          congr 1
          omega
        have hint : ((digitsValue (c :: s) : ℤ)).bmod 4294967296 = digitsValue (c :: s) := by
          rw [Int.bmod_def]
          omega
        rw [readPort, hstrtol]
        simp only [hint, reduceCtorEq, false_or, Int.toNat_natCast]
        rw [if_neg (by omega)]
        exact h
  · cases h

end I2util
