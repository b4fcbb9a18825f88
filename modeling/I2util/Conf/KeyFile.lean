import I2util.Conf.Hex
import I2util.Conf.RecordFile

/-!
The key file: `I2ParseKeyFile` and `I2WriteKeyLine`.
-/

namespace I2util

/-- The word copied to `rbuf`: at most one character more than an identity may
have. -/
def identityWord (line : List UInt8) : List UInt8 :=
  (line.takeWhile fun c => !isspace c).take (I2MAXIDENTITYLEN + 1)

/-- `keystart`: what follows the identity and the white space after it. -/
def keyStart (line : List UInt8) : List UInt8 :=
  (line.drop (identityWord line).length).dropWhile isspace

/-- The trailing loop: after the key only white space may stand, and then a
comment. -/
def onlyComment (line : List UInt8) : Bool :=
  match line.dropWhile isspace with
  | [] => true
  | c :: _ => c = hash

/-- The body of the loop of `I2ParseKeyFile`, on the C string `line`. A record
is what is stored through `id_ret` and `key_ret`. -/
def keyLine (id_query : Option (List UInt8)) (line : List UInt8) :
    Verdict (List UInt8 × List UInt8) :=
  let rbuf := identityWord line
  let keystart := keyStart line
  if I2MAXIDENTITYLEN < rbuf.length then .reject (some .invalidIdentityTooLong)
  else if strcspn keystart ≠ I2KEYLEN * 2 then .reject (some .invalidKeyLength)
  else if onlyComment (keystart.drop (strcspn keystart)) = false then
    .reject (some .invalidCharsAfterKey)
  else
    match i2HexDecode keystart I2KEYLEN with
    | none => .reject (some .invalidKeyNotHex)
    | some kbuf =>
        match id_query with
        | none => .hit (rbuf, kbuf)
        | some query =>
            if strncmp rbuf query I2MAXIDENTITYLEN ≠ 0 then .skip else .hit (rbuf, kbuf)

/-- `none` for `fp` is the null pointer. -/
def i2ParseKeyFile (fp : Option (List UInt8)) (rc : ℤ) (id_query : Option (List UInt8)) :
    Option (FileRead (List UInt8 × List UInt8)) :=
  match fp with
  | none => some ⟨0, none, [], [], none⟩
  | some fp => readRecords (keyLine id_query) fp rc

/-- The value returned and the bytes printed to `fp`. The key has `I2KEYLEN`
bytes. -/
def i2WriteKeyLine (id key : List UInt8) : ℤ × List UInt8 :=
  if id = [] ∨ I2MAXIDENTITYLEN < id.length then (-1, [])
  else
    let (ret, printed) := fprintf (id ++ tab :: i2HexEncode key ++ [nl])
    (if 0 < ret then 0 else ret, printed)

def keyEntry (line : List UInt8) : Option (List UInt8 × List UInt8) :=
  match keyLine none line with
  | .hit record => some record
  | _ => none

/-- An identity as the writers take it: a nonempty word that is not read as a
comment. -/
structure IsIdentity (id : List UInt8) : Prop where
  ne_nil : id ≠ []
  word : ∀ c ∈ id, isspace c = false ∧ c ≠ 0
  no_hash : id.head? ≠ some hash

theorem IsIdentity.no_nul {id : List UInt8} (h : IsIdentity id) : (0 : UInt8) ∉ id :=
  fun hmem => (h.word 0 hmem).2 rfl

/-- All the checks of `I2ParseKeyFile` on a line it accepts. -/
theorem keyEntry_iff {line i k : List UInt8} :
    keyEntry line = some (i, k) ↔
      i = identityWord line ∧ i.length ≤ I2MAXIDENTITYLEN ∧
      strcspn (keyStart line) = I2KEYLEN * 2 ∧
      onlyComment ((keyStart line).drop (I2KEYLEN * 2)) = true ∧
      i2HexDecode (keyStart line) I2KEYLEN = some k := by
  by_cases hlong : I2MAXIDENTITYLEN < (identityWord line).length
  · simp only [keyEntry, keyLine, hlong, if_true, reduceCtorEq, false_iff]
    rintro ⟨rfl, hle, -⟩
    exact absurd hlong (Nat.not_lt.mpr hle)
  · by_cases hlen : strcspn (keyStart line) = I2KEYLEN * 2
    · cases hcomment : onlyComment ((keyStart line).drop (I2KEYLEN * 2)) with
      | false => simp [keyEntry, keyLine, hlong, hlen, hcomment]
      | true =>
          cases hdec : i2HexDecode (keyStart line) I2KEYLEN with
          | none => simp [keyEntry, keyLine, hlong, hlen, hcomment, hdec]
          | some kbuf =>
              have hentry : keyEntry line = some (identityWord line, kbuf) := by
                simp [keyEntry, keyLine, hlong, hlen, hcomment, hdec]
              rw [hentry]
              constructor
              · intro h
                cases h
                exact ⟨rfl, Nat.not_lt.mp hlong, hlen, rfl, rfl⟩
              · rintro ⟨rfl, -, -, -, h⟩
                cases h
                rfl
    · simp [keyEntry, keyLine, hlong, hlen]

theorem IsIdentity.takeWhile_append {id rest : List UInt8} (h : IsIdentity id)
    (hrest : Scan.Stops (fun c => !isspace c) rest) :
    (id ++ rest).takeWhile (fun c => !isspace c) = id :=
  Scan.takeWhile_append (fun c hc => by simp [(h.word c hc).1]) hrest

theorem IsIdentity.drop_strcspn {id rest : List UInt8} (h : IsIdentity id)
    (hrest : Scan.Stops (fun c => !isspace c) rest) :
    (id ++ rest).drop (strcspn (id ++ rest)) = rest := by
  rw [strcspn, h.takeWhile_append hrest]
  exact List.drop_left

theorem IsIdentity.dataText {id rest : List UInt8} (h : IsIdentity id)
    (hnl : nl ∉ rest) (hnul : (0 : UInt8) ∉ rest) : DataText (id ++ rest) := by
  obtain ⟨c, t, hct⟩ := List.exists_cons_of_ne_nil h.ne_nil
  have hid : nl ∉ id := fun hmem => by simpa using (h.word _ hmem).1
  have hhash := h.no_hash
  simp only [hct, List.head?_cons, ne_eq, Option.some.injEq] at hhash
  exact ⟨by simp [hid, hnl], by simp [h.no_nul, hnul], c, t ++ rest, by simp [hct],
    (h.word c (by simp [hct])).1, hhash⟩

theorem keyEntry_length {line i k : List UInt8} (h : keyEntry line = some (i, k)) :
    i.length ≤ I2MAXIDENTITYLEN :=
  (keyEntry_iff.mp h).2.1

theorem keyEntry_no_nul {line i k : List UInt8} (h : keyEntry line = some (i, k))
    (hline : (0 : UInt8) ∉ line) : (0 : UInt8) ∉ i := by
  obtain ⟨rfl, -⟩ := keyEntry_iff.mp h
  exact fun hmem => hline ((List.takeWhile_prefix _).subset (List.mem_of_mem_take hmem))

theorem keyLine_none {line : List UInt8} {record : List UInt8 × List UInt8}
    (h : keyEntry line = some record) : keyLine none line = .hit record := by
  rw [keyEntry] at h
  split at h
  · rename_i x hx
    rw [hx, Option.some.inj h]
  · cases h

theorem keyLine_of_entry {line i k query : List UInt8} (h : keyEntry line = some (i, k)) :
    keyLine (some query) line =
      if strncmp i query I2MAXIDENTITYLEN ≠ 0 then .skip else .hit (i, k) := by
  obtain ⟨rfl, hshort, hlen, hcomment, hdec⟩ := keyEntry_iff.mp h
  simp [keyLine, Nat.not_lt.mpr hshort, hlen, hcomment, hdec]

/-- The comparison is with the first characters of the query. -/
theorem keyLine_compared {line i k query : List UInt8} (h : keyEntry line = some (i, k))
    (hline : (0 : UInt8) ∉ line) (hquery : (0 : UInt8) ∉ query) :
    keyLine (some query) line =
      if i = query.take I2MAXIDENTITYLEN then .hit (i, k) else .skip := by
  have hcmp := strncmp_eq_zero (keyEntry_no_nul h hline) hquery I2MAXIDENTITYLEN
  rw [List.take_of_length_le (keyEntry_length h)] at hcmp
  rw [keyLine_of_entry h]
  by_cases heq : i = query.take I2MAXIDENTITYLEN
  · rw [if_pos heq, if_neg (not_not.mpr (hcmp.mpr heq))]
  · rw [if_neg heq, if_pos (mt hcmp.mp heq)]

/-- For a query that is an identity, the bounded comparison is equality. -/
theorem keyLine_query {line i k query : List UInt8} (h : keyEntry line = some (i, k))
    (hline : (0 : UInt8) ∉ line) (hquery : (0 : UInt8) ∉ query)
    (hlen : query.length ≤ I2MAXIDENTITYLEN) :
    keyLine (some query) line = if i = query then .hit (i, k) else .skip := by
  rw [keyLine_compared h hline hquery, List.take_of_length_le hlen]

/-- A word, white space, the digits of a key and what may stand behind them are an
accepted line. -/
theorem keyEntry_append {id ws digits trail key : List UInt8}
    (hid : ∀ c ∈ id, isspace c = false) (hshort : id.length ≤ I2MAXIDENTITYLEN) (hne : ws ≠ [])
    (hws : ∀ c ∈ ws, isspace c = true) (hlen : digits.length = I2KEYLEN * 2)
    (hdigits : ∀ c ∈ digits, isspace c = false) (hstops : Scan.Stops (fun c => !isspace c) trail)
    (hcomment : onlyComment trail = true) (hdecode : i2HexDecode digits I2KEYLEN = some key) :
    keyEntry (id ++ (ws ++ (digits ++ trail))) = some (id, key) := by
  have hdne : digits ≠ [] := by
    rintro rfl
    simp at hlen
  have hword : (id ++ (ws ++ (digits ++ trail))).takeWhile (fun c => !isspace c) = id :=
    Scan.takeWhile_append (fun c hc => by simp [hid c hc])
      (Scan.stops_append_of_all hne fun c hc => by simp [hws c hc])
  have hident : identityWord (id ++ (ws ++ (digits ++ trail))) = id := by
    rw [identityWord, hword]
    exact List.take_of_length_le (by omega)
  have hstart : keyStart (id ++ (ws ++ (digits ++ trail))) = digits ++ trail := by
    rw [keyStart, hident, List.drop_left]
    exact Scan.dropWhile_append hws (Scan.stops_append_of_all hdne hdigits)
  have hcount : strcspn (digits ++ trail) = I2KEYLEN * 2 := by
    rw [strcspn, Scan.takeWhile_append (fun c hc => by simp [hdigits c hc]) hstops, hlen]
  have hbytes : i2HexDecode (digits ++ trail) I2KEYLEN = some key := by
    rw [i2HexDecode_append (by rw [hlen, Nat.mul_comm])]
    exact hdecode
  rw [keyEntry_iff, hident, hstart, List.drop_left' hlen]
  exact ⟨rfl, hshort, hcount, hcomment, hbytes⟩

/-- `I2WriteKeyLine` writes a line that `I2ParseKeyFile` accepts. -/
theorem keyEntry_write {id key : List UInt8} (hid : IsIdentity id)
    (hlen : id.length ≤ I2MAXIDENTITYLEN) (hkey : key.length = I2KEYLEN) :
    keyEntry (id ++ tab :: i2HexEncode key) = some (id, key) := by
  have hhex : ∀ c ∈ i2HexEncode key, isspace c = false := fun c hc =>
    (not_isspace_hexDigit (isHexDigit_of_mem_encode hc)).1
  have hdigits : (i2HexEncode key).length = I2KEYLEN * 2 := by
    rw [i2HexEncode_length, hkey, Nat.mul_comm]
  have hdecode : i2HexDecode (i2HexEncode key) I2KEYLEN = some key := by
    rw [← hkey]
    exact i2HexDecode_encode key
  have hentry : keyEntry (id ++ ([tab] ++ (i2HexEncode key ++ []))) = some (id, key) :=
    keyEntry_append (fun c hc => (hid.word c hc).1) hlen (by simp) (by simp) hdigits hhex
      Scan.stops_nil rfl hdecode
  simpa using hentry

theorem i2WriteKeyLine_eq {id key : List UInt8} (hid : id ≠ [])
    (hlen : id.length ≤ I2MAXIDENTITYLEN) (hkey : key.length = I2KEYLEN) :
    i2WriteKeyLine id key = (0, id ++ tab :: i2HexEncode key ++ [nl]) := by
  have hfits : (id ++ tab :: i2HexEncode key ++ [nl]).length ≤ 2147483647 := by
    simp only [List.length_append, List.length_cons, i2HexEncode_length, hkey,
      List.length_nil, I2MAXIDENTITYLEN, I2KEYLEN] at hlen ⊢
    omega
  have hpos : 0 < (id ++ tab :: i2HexEncode key ++ [nl]).length := by
    simp only [List.length_append, List.length_cons, List.length_nil]
    omega
  rw [i2WriteKeyLine, if_neg (not_or.mpr ⟨hid, Nat.not_lt.mpr hlen⟩), fprintf, if_pos hfits]
  exact Prod.ext (if_pos (by exact_mod_cast hpos)) rfl

/-! ### Reading a written line back -/

/-- The law of the writer and the reader: a line written without an error is read
back as the identity and the key it was written from. -/
def KeyReadsBack (id key : List UInt8) : Prop :=
  (i2WriteKeyLine id key).1 = 0 →
    ∀ rc, 0 ≤ rc →
      ∃ r, i2ParseKeyFile (some (i2WriteKeyLine id key).2) rc none = some r ∧
        0 < r.rc ∧ r.found = some (id, key)

def WriterRefuses (id : List UInt8) : Prop := id = [] ∨ I2MAXIDENTITYLEN < id.length

instance (id : List UInt8) : Decidable (WriterRefuses id) := inferInstanceAs (Decidable (_ ∨ _))

def PlainWord (id : List UInt8) : Prop := (∀ c ∈ id, isspace c = false) ∧ id.head? ≠ some hash

instance (id : List UInt8) : Decidable (PlainWord id) := inferInstanceAs (Decidable (_ ∧ _))

theorem PlainWord.isIdentity {id : List UInt8} (h : PlainWord id) (hne : id ≠ [])
    (hnul : (0 : UInt8) ∉ id) : IsIdentity id :=
  ⟨hne, fun c hc => ⟨h.1 c hc, fun h0 => hnul (h0 ▸ hc)⟩, h.2⟩

theorem keyLine_hit_word {line i k : List UInt8} (h : keyLine none line = .hit (i, k)) :
    ∀ c ∈ i, isspace c = false := by
  have hentry : keyEntry line = some (i, k) := by simp [keyEntry, h]
  obtain ⟨rfl, -⟩ := keyEntry_iff.mp hentry
  intro c hc
  simpa using List.mem_takeWhile_imp (List.mem_of_mem_take hc)

/-- A single row that begins with a comment sign holds no record. -/
theorem i2ParseKeyFile_comment {text : List UInt8} (htext : nl ∉ text) (rc : ℤ)
    (query : Option (List UInt8)) :
    i2ParseKeyFile (some (hash :: text ++ [nl])) rc query =
      some ⟨0, none, [], hash :: text ++ [nl], none⟩ := by
  have hcopy : readRecords (keyLine query) (hash :: text ++ nl :: []) rc = _ :=
    readRecords_copy (l := .comment text htext) (by simp) [] rc
  simpa [i2ParseKeyFile, FileRead.print, FileLine.copy] using hcopy

theorem i2WriteKeyLine_refused {id key : List UInt8} (h : WriterRefuses id) :
    i2WriteKeyLine id key = (-1, []) :=
  if_pos h

/-- What is written after an identity belongs to its row. -/
theorem not_mem_writtenKey (key : List UInt8) :
    nl ∉ tab :: i2HexEncode key ∧ (0 : UInt8) ∉ tab :: i2HexEncode key := by
  constructor <;> intro hmem <;> rcases List.mem_cons.mp hmem with h | h
  · exact absurd h (by decide)
  · simpa using (not_isspace_hexDigit (isHexDigit_of_mem_encode h)).1
  · exact absurd h (by decide)
  · exact (not_isspace_hexDigit (isHexDigit_of_mem_encode h)).2.1 rfl

/-- The law holds exactly for the identities that are one word and no comment,
apart from those the writer refuses. -/
theorem keyReadsBack_iff {id key : List UInt8} (hnul : (0 : UInt8) ∉ id)
    (hkey : key.length = I2KEYLEN) :
    KeyReadsBack id key ↔ WriterRefuses id ∨ PlainWord id := by
  by_cases hrefused : WriterRefuses id
  · have hvacuous : KeyReadsBack id key := by
      intro h0
      rw [i2WriteKeyLine_refused hrefused] at h0
      exact absurd h0 (by decide)
    exact iff_of_true hvacuous (.inl hrefused)
  · obtain ⟨hne, hlen⟩ := not_or.mp hrefused
    have hlen := Nat.le_of_not_lt hlen
    have hwrite := i2WriteKeyLine_eq hne hlen hkey
    obtain ⟨hnlkey, hnulkey⟩ := not_mem_writtenKey key
    rw [or_iff_right hrefused]
    constructor
    · intro hback
      obtain ⟨r, hr, hpos, hfound⟩ := hback (by rw [hwrite]) 0 le_rfl
      obtain ⟨line, hline⟩ := readRecords_found hr hfound
      have hword := keyLine_hit_word hline
      refine ⟨hword, fun hhead => ?_⟩
      -- such a line is a comment
      obtain ⟨t, rfl⟩ := List.head?_eq_some_iff.mp hhead
      have hnl : nl ∉ t ++ tab :: i2HexEncode key := by
        have ht : nl ∉ t := fun hmem => by simpa using hword nl (List.mem_cons_of_mem hash hmem)
        simp [ht, List.mem_append, hnlkey]
      have hread := i2ParseKeyFile_comment hnl 0 none
      rw [hwrite] at hr
      simp only [List.cons_append, List.append_assoc] at hr hread
      obtain rfl := Option.some.inj (hread.symm.trans hr)
      exact absurd hpos (Int.lt_irrefl 0)
    · intro hword _ rc hrc
      have hid := hword.isIdentity hne hnul
      have hdata : DataText (id ++ tab :: i2HexEncode key) :=
        hid.dataText hnlkey hnulkey
      have hjudge : keyLine none (id ++ tab :: i2HexEncode key) = .hit (id, key) :=
        keyLine_none (keyEntry_write hid hlen hkey)
      have hread := readRecords_hit hdata (.newline []) hrc hjudge
      refine ⟨⟨rc + 1, some (id, key), [], [], none⟩, ?_, by simp only; omega, rfl⟩
      rw [hwrite]
      simpa [i2ParseKeyFile] using hread

theorem keyReadsBack_jdoe : KeyReadsBack (ascii "jdoe") (List.replicate 16 7) :=
  (keyReadsBack_iff (by decide) (by decide)).mpr (.inr (by decide))

/-- A user whose name begins with a comment sign vanishes. -/
theorem not_keyReadsBack_hash : ¬KeyReadsBack (ascii "#jdoe") (List.replicate 16 7) := by
  intro hback
  obtain ⟨r, hr, hpos, -⟩ := hback (by decide) 0 le_rfl
  have hread : i2ParseKeyFile (some (i2WriteKeyLine (ascii "#jdoe") (List.replicate 16 7)).2) 0
      none = _ :=
    @i2ParseKeyFile_comment (ascii "jdoe" ++ tab :: i2HexEncode (List.replicate 16 7))
      (by decide) 0 none
  obtain rfl := Option.some.inj (hread.symm.trans hr)
  exact absurd hpos (by decide)

end I2util
