import I2util.Conf.KeyFile

/-!
The pass-phrase file: `I2ParsePFFile` and `I2WritePFLine`.
-/

namespace I2util

/-- `isspace(*s)`, where the end of the string is its NUL. -/
def startsSpace : List UInt8 → Bool
  | [] => false
  | c :: _ => isspace c

/-- The test that makes `I2ParsePFFile` skip a line. -/
def pfSkips (id_query : Option (List UInt8)) (line : List UInt8) : Bool :=
  match id_query with
  | none => false
  | some query =>
      query.length = 0 || strncmp line query (min (strcspn line) query.length) ≠ 0

/-- `hex` after the identity and the white space behind it. -/
def hexStart (line : List UInt8) : List UInt8 :=
  (line.drop (strcspn line)).tail.dropWhile isspace

/-- The body of the loop of `I2ParsePFFile`, on the C string `line`. A record
is the string at `*id_ret` and the `*pf_len` bytes at `*pf_ret`. -/
def pfLine (id_query : Option (List UInt8)) (line : List UInt8) :
    Verdict (List UInt8 × List UInt8) :=
  if startsSpace (line.drop (strcspn line)) = false then .reject none
  else if pfSkips id_query line = true then .skip
  else
    let hex := hexStart line
    let hex_len := strcspn hex
    let ts := (hex.drop hex_len).dropWhile isspace
    if hex_len = 0 ∨ hex_len % 2 ≠ 0 ∨ ts ≠ [] then .reject none
    else
      match i2HexDecode (hex.take hex_len) (hex_len / 2) with
      | none => .reject (some .invalidKeyNotHex)
      | some pf => .hit (line.take (strcspn line), pf)

def i2ParsePFFile (filep : Option (List UInt8)) (rc : ℤ) (id_query : Option (List UInt8)) :
    Option (FileRead (List UInt8 × List UInt8)) :=
  match filep with
  | none => some ⟨0, none, [], [], none⟩
  | some filep => readRecords (pfLine id_query) filep rc

def i2WritePFLine (id bytes : List UInt8) : ℤ × List UInt8 :=
  if id = [] then (-1, [])
  else
    let (ret, printed) := fprintf (id ++ tab :: i2HexEncode bytes ++ [nl])
    (if 0 < ret then 0 else ret, printed)

/-- One of the strings is a prefix of the other. This is what the comparison of
`I2ParsePFFile` tests, over the shorter of the two lengths. -/
def Comparable (a b : List UInt8) : Prop := a <+: b ∨ b <+: a

instance (a b : List UInt8) : Decidable (Comparable a b) :=
  inferInstanceAs (Decidable (_ ∨ _))

theorem comparable_iff {a b : List UInt8} :
    Comparable a b ↔ a.take (min a.length b.length) = b.take (min a.length b.length) := by
  rcases Nat.le_total a.length b.length with h | h
  · rw [Nat.min_eq_left h, List.take_length]
    constructor
    · rintro (hab | hba)
      · exact (List.prefix_iff_eq_take.mp hab)
      · rw [hba.eq_of_length_le h, List.take_length]
    · exact fun heq => .inl (List.prefix_iff_eq_take.mpr heq)
  · rw [Nat.min_eq_right h, List.take_length]
    constructor
    · rintro (hab | hba)
      · rw [hab.eq_of_length_le h, List.take_length]
      · exact (List.prefix_iff_eq_take.mp hba).symm
    · exact fun heq => .inr (List.prefix_iff_eq_take.mpr heq.symm)

theorem comparable_self (a : List UInt8) : Comparable a a := .inl (List.prefix_refl a)

/-- The skip test of a line, in terms of its first word. -/
theorem pfSkips_iff {line query : List UInt8} (hline : (0 : UInt8) ∉ line)
    (hquery : (0 : UInt8) ∉ query) (hne : query ≠ []) :
    pfSkips (some query) line = true ↔
      ¬Comparable (line.takeWhile fun c => !isspace c) query := by
  have hword : line.take (min (strcspn line) query.length) =
      (line.takeWhile fun c => !isspace c).take (min (strcspn line) query.length) := by
    rw [← take_strcspn, List.take_take, Nat.min_right_comm, Nat.min_self]
  have hcmp := strncmp_eq_zero hline hquery (min (strcspn line) query.length)
  rw [comparable_iff, ← strcspn, ← hword, ← hcmp]
  simp [pfSkips, hne]

def pfEntry (line : List UInt8) : Option (List UInt8 × List UInt8) :=
  match pfLine none line with
  | .hit record => some record
  | _ => none

theorem pfLine_of_entry {line : List UInt8} {record : List UInt8 × List UInt8}
    (h : pfEntry line = some record) : pfLine none line = .hit record := by
  rw [pfEntry] at h
  split at h
  · rename_i x hx
    rw [hx, Option.some.inj h]
  · cases h

theorem pfEntry_iff {line i pf : List UInt8} :
    pfEntry line = some (i, pf) ↔
      i = (line.takeWhile fun c => !isspace c) ∧
      startsSpace (line.drop (strcspn line)) = true ∧
      strcspn (hexStart line) ≠ 0 ∧ strcspn (hexStart line) % 2 = 0 ∧
      ((hexStart line).drop (strcspn (hexStart line))).dropWhile isspace = [] ∧
      i2HexDecode ((hexStart line).take (strcspn (hexStart line)))
        (strcspn (hexStart line) / 2) = some pf := by
  cases hsep : startsSpace (line.drop (strcspn line)) with
  | false => simp [pfEntry, pfLine, hsep]
  | true =>
      -- the digits have a wrong number, or something stands behind them
      by_cases hshape : strcspn (hexStart line) = 0 ∨ strcspn (hexStart line) % 2 ≠ 0 ∨
          ((hexStart line).drop (strcspn (hexStart line))).dropWhile isspace ≠ []
      · have hnone : pfEntry line = none := by
          simp only [pfEntry, pfLine, hsep, pfSkips, hshape, if_true]
          simp
        rw [hnone]
        simp only [reduceCtorEq, false_iff]
        rintro ⟨-, -, hne, heven, hts, -⟩
        tauto
      · cases hdec : i2HexDecode ((hexStart line).take (strcspn (hexStart line)))
            (strcspn (hexStart line) / 2) with
        | none =>
            have hnone : pfEntry line = none := by
              simp only [pfEntry, pfLine, hsep, pfSkips, hshape, if_false, hdec]
              simp
            simp [hnone]
        | some bytes =>
            have hentry : pfEntry line =
                some (line.takeWhile fun c => !isspace c, bytes) := by
              rw [← take_strcspn line]
              simp only [pfEntry, pfLine, hsep, pfSkips, hshape, if_false, hdec]
              simp
            simp only [not_or, not_not] at hshape
            obtain ⟨hne, heven, hts⟩ := hshape
            rw [hentry]
            constructor
            · intro h
              cases h
              exact ⟨rfl, rfl, hne, heven, hts, rfl⟩
            · rintro ⟨rfl, -, -, -, -, h⟩
              cases h
              rfl

/-- With a query, an accepted line is returned when its identity and the query
are comparable. -/
theorem pfLine_query {line i pf query : List UInt8} (h : pfEntry line = some (i, pf))
    (hline : (0 : UInt8) ∉ line) (hquery : (0 : UInt8) ∉ query) (hne : query ≠ []) :
    pfLine (some query) line = if Comparable i query then .hit (i, pf) else .skip := by
  obtain ⟨rfl, hsep, hlen, heven, hts, hdec⟩ := pfEntry_iff.mp h
  have hskip := pfSkips_iff hline hquery hne
  by_cases hcmp : Comparable (line.takeWhile fun c => !isspace c) query
  · have hno : pfSkips (some query) line = false := by
      simpa [hcmp] using hskip
    rw [if_pos hcmp, ← take_strcspn line]
    simp only [pfLine, hsep, hno, hlen, heven, hts, hdec]
    simp
  · simp [pfLine, hsep, hskip.mpr hcmp, hcmp]

/-- What `I2WritePFLine` does with an identity: the printed line is an `int` long
and it returns 0, or it prints nothing. -/
theorem i2WritePFLine_eq {id bytes : List UInt8} (hid : id ≠ []) :
    i2WritePFLine id bytes =
      if id.length + 2 * bytes.length + 2 ≤ 2147483647 then
        (0, id ++ tab :: i2HexEncode bytes ++ [nl])
      else (-1, []) := by
  have hlen : (id ++ tab :: i2HexEncode bytes ++ [nl]).length =
      id.length + 2 * bytes.length + 2 := by
    simp only [List.length_append, List.length_cons, List.length_nil, i2HexEncode_length]
    omega
  by_cases hfits : id.length + 2 * bytes.length + 2 ≤ 2147483647
  · rw [i2WritePFLine, if_neg hid, fprintf, hlen, if_pos hfits, if_pos hfits]
    exact Prod.ext (if_pos (by omega)) rfl
  · rw [i2WritePFLine, if_neg hid, fprintf, hlen, if_neg hfits, if_neg hfits]
    rfl

end I2util
