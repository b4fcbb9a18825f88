import I2util.Conf.DataLines
import I2util.Conf.RowCounter

/-!
The lines that `I2ParseKeyFile` accepts, and the records that it returns for a query.
-/

namespace I2util

/-! ### Digits and bytes -/

theorem hexDigit_of_offset {c h : UInt8} (hc : hexOffset c = some h) :
    hexDigit h = tolower c ∧ h < 16 := by
  have hall : ∀ c : UInt8, ∀ h ∈ hexOffset c, hexDigit h = tolower c ∧ h < 16 := by
    apply forall_uint8
    decide +kernel
  exact hall c h hc

theorem nibbles {h l : UInt8} (hh : h < 16) (hl : l < 16) :
    ((h <<< 4) ||| l) >>> 4 = h ∧ ((h <<< 4) ||| l) &&& 0x0f = l := by
  have hall : ∀ a b : Fin 16, (((UInt8.ofNat a <<< 4) ||| UInt8.ofNat b) >>> 4 = UInt8.ofNat a) ∧
      ((UInt8.ofNat a <<< 4) ||| UInt8.ofNat b) &&& 0x0f = UInt8.ofNat b := by
    decide +kernel
  have h' := hall ⟨h.toNat, UInt8.lt_iff_toNat_lt.mp hh⟩ ⟨l.toNat, UInt8.lt_iff_toNat_lt.mp hl⟩
  simpa using h'

theorem hexOffset_tolower (c : UInt8) : hexOffset (tolower c) = hexOffset c := by
  revert c
  apply forall_uint8
  decide +kernel

theorem i2HexDecode_tolower (digits : List UInt8) (n : ℕ) :
    i2HexDecode (digits.map tolower) n = i2HexDecode digits n := by
  induction n generalizing digits with
  | zero => rfl
  | succ n ih =>
      -- a pair of digits is decoded as its lower case is
      have hbyte : decodeByte (digits.map tolower) =
          (decodeByte digits).map fun p => (p.1, p.2.map tolower) := by
        match digits with
        | [] => rfl
        | [a] => simp [decodeByte, hexOffset_tolower, Function.comp_def]
        | a :: b :: t =>
            cases ha : hexOffset a <;> cases hb : hexOffset b <;>
              simp [decodeByte, hexOffset_tolower, ha, hb]
      rw [i2HexDecode, i2HexDecode, hbyte, Option.bind_map]
      congr 1
      funext p
      simp [ih]

/-- The bytes that some digits are decoded to are those that encode to the digits, in
lower case. -/
theorem i2HexDecode_iff {n : ℕ} {digits bytes : List UInt8} (hlen : digits.length = 2 * n) :
    i2HexDecode digits n = some bytes ↔
      bytes.length = n ∧ i2HexEncode bytes = digits.map tolower := by
  constructor
  · intro h
    refine ⟨i2HexDecode_length h, ?_⟩
    induction n generalizing digits bytes with
    | zero =>
        obtain rfl : digits = [] := List.eq_nil_of_length_eq_zero hlen
        obtain rfl := List.eq_nil_of_length_eq_zero (i2HexDecode_length h)
        rfl
    | succ n ih =>
        obtain ⟨a, b, digits, rfl⟩ : ∃ a b t, digits = a :: b :: t := by
          match digits, hlen with
          | a :: b :: t, _ => exact ⟨a, b, t, rfl⟩
        have hlen : digits.length = 2 * n := by
          simp only [List.length_cons] at hlen
          omega
        simp only [i2HexDecode, decodeByte, Option.bind_eq_some_iff, Option.map_eq_some_iff] at h
        obtain ⟨-, ⟨x, hx, y, hy, rfl⟩, bytes, hrest, rfl⟩ := h
        obtain ⟨hxa, hx16⟩ := hexDigit_of_offset hx
        obtain ⟨hyb, hy16⟩ := hexDigit_of_offset hy
        obtain ⟨hhigh, hlow⟩ := nibbles hx16 hy16
        rw [i2HexEncode_cons, hhigh, hlow, hxa, hyb, ih hlen hrest]
        rfl
  · rintro ⟨rfl, hencode⟩
    rw [← i2HexDecode_tolower, ← hencode]
    exact i2HexDecode_encode bytes

/-! ### The grammar of a line -/

/-- Nothing, or white space that may end in a comment. -/
def KeyTrail (trail : List UInt8) : Prop :=
  trail = [] ∨ ∃ ws, ws ≠ [] ∧ (∀ c ∈ ws, isspace c = true) ∧
    (trail = ws ∨ ∃ text, trail = ws ++ hash :: text)

def KeyForm (line id key : List UInt8) : Prop :=
  ∃ ws digits trail, line = id ++ (ws ++ (digits ++ trail)) ∧
    (id ≠ [] ∧ id.length ≤ I2MAXIDENTITYLEN ∧ ∀ c ∈ id, isspace c = false) ∧
    (ws ≠ [] ∧ ∀ c ∈ ws, isspace c = true) ∧
    (digits.length = I2KEYLEN * 2 ∧ ∀ c ∈ digits, isHexDigit c = true) ∧
    (key.length = I2KEYLEN ∧ i2HexEncode key = digits.map tolower) ∧ KeyTrail trail

theorem KeyTrail.stops {trail : List UInt8} (h : KeyTrail trail) :
    Scan.Stops (fun c => !isspace c) trail := by
  rcases h with rfl | ⟨ws, hne, hws, rfl | ⟨text, rfl⟩⟩
  · exact Scan.stops_nil
  · exact Scan.stops_of_all fun c hc => by simp [hws c hc]
  · exact Scan.stops_append_of_all hne fun c hc => by simp [hws c hc]

theorem onlyComment_iff {trail : List UInt8} (hstops : Scan.Stops (fun c => !isspace c) trail) :
    onlyComment trail = true ↔ KeyTrail trail := by
  constructor
  · intro h
    cases htrail : trail with
    | nil => exact .inl rfl
    | cons c t =>
        rw [htrail] at hstops h
        have hspace : isspace c = true := by simpa using hstops
        have hsplit := @List.takeWhile_append_dropWhile _ isspace (c :: t)
        have hws : ∀ d ∈ (c :: t).takeWhile isspace, isspace d = true := fun d hd =>
          List.mem_takeWhile_imp hd
        refine .inr ⟨(c :: t).takeWhile isspace, by simp [hspace], hws, ?_⟩
        rw [onlyComment] at h
        split at h
        · rename_i hrest
          rw [hrest, List.append_nil] at hsplit
          exact .inl hsplit.symm
        · rename_i d text hrest
          obtain rfl : d = hash := by simpa using h
          rw [hrest] at hsplit
          exact .inr ⟨text, hsplit.symm⟩
  · rintro (rfl | ⟨ws, hne, hws, rfl | ⟨text, rfl⟩⟩)
    · rfl
    · rw [onlyComment, Scan.dropWhile_of_all hws]
    · have hdrop : (ws ++ hash :: text).dropWhile isspace = hash :: text :=
        Scan.dropWhile_append hws (by simp)
      simp [onlyComment, hdrop]

theorem KeyForm.entry {line id key : List UInt8} (h : KeyForm line id key) :
    keyEntry line = some (id, key) := by
  obtain ⟨ws, digits, trail, rfl, ⟨-, hshort, hid⟩, ⟨hne, hws⟩, ⟨hlen, hhex⟩, hkey, htrail⟩ := h
  have hdigits : ∀ c ∈ digits, isspace c = false := fun c hc => (not_isspace_hexDigit (hhex c hc)).1
  have hdecode : i2HexDecode digits I2KEYLEN = some key :=
    (i2HexDecode_iff (by rw [hlen, Nat.mul_comm])).mpr hkey
  exact keyEntry_append hid hshort hne hws hlen hdigits htrail.stops
    ((onlyComment_iff htrail.stops).mpr htrail) hdecode

theorem identityWord_short {line : List UInt8}
    (h : (identityWord line).length ≤ I2MAXIDENTITYLEN) :
    identityWord line = line.takeWhile fun c => !isspace c := by
  rw [identityWord] at h ⊢
  rw [List.length_take] at h
  exact List.take_of_length_le (by omega)

theorem keyStart_short {line : List UInt8} (h : (identityWord line).length ≤ I2MAXIDENTITYLEN) :
    keyStart line = (line.dropWhile fun c => !isspace c).dropWhile isspace := by
  have hsplit := @List.takeWhile_append_dropWhile _ (fun c => !isspace c) line
  rw [← identityWord_short h] at hsplit
  have hdrop := @List.drop_left _ (identityWord line) (line.dropWhile fun c => !isspace c)
  rw [hsplit] at hdrop
  rw [keyStart, hdrop]

/-- A data line that is accepted is one of the grammar. -/
theorem keyEntry_form {line id key : List UInt8} (h : keyEntry line = some (id, key))
    (hline : DataText line) : KeyForm line id key := by
  obtain ⟨rfl, hshort, hcount, hbehind, hdecode⟩ := keyEntry_iff.mp h
  have hstart := keyStart_short hshort
  have hsplit := @List.takeWhile_append_dropWhile _ (fun c => !isspace c) line
  have hafter := Scan.stops_dropWhile (fun c => !isspace c) line
  generalize line.dropWhile (fun c => !isspace c) = rest at hsplit hstart hafter
  have hrest := @List.takeWhile_append_dropWhile _ isspace rest
  -- the digits and what is behind them
  have hkey := @List.takeWhile_append_dropWhile _ (fun c => !isspace c) (keyStart line)
  have hstops := Scan.stops_dropWhile (fun c => !isspace c) (keyStart line)
  have hlen : ((keyStart line).takeWhile fun c => !isspace c).length = 2 * I2KEYLEN := hcount
  generalize (keyStart line).dropWhile (fun c => !isspace c) = trail at hkey hstops
  generalize (keyStart line).takeWhile (fun c => !isspace c) = digits at hkey hlen
  rw [← hkey] at hdecode hbehind
  rw [List.drop_left' (show digits.length = I2KEYLEN * 2 from hlen)] at hbehind
  have hhex : ∀ c ∈ digits, isHexDigit c = true :=
    (i2HexDecode_isSome hlen).mp (by rw [hdecode]; rfl)
  rw [i2HexDecode_append hlen] at hdecode
  refine ⟨rest.takeWhile isspace, digits, trail, ?_, ⟨?_, hshort, ?_⟩, ⟨?_, ?_⟩, ⟨hlen, hhex⟩,
    (i2HexDecode_iff hlen).mp hdecode, (onlyComment_iff hstops).mp hbehind⟩
  · rw [hkey, hstart, hrest, identityWord_short hshort]
    exact hsplit.symm
  · obtain ⟨c, t, hc, hspace, -⟩ := hline.first
    rw [identityWord_short hshort, hc]
    simp [hspace]
  · rw [identityWord_short hshort]
    intro c hc
    simpa using List.mem_takeWhile_imp hc
  · intro hnone
    cases rest with
    | nil =>
        rw [hstart] at hkey
        have hempty := congrArg List.length hkey
        rw [List.length_append, hlen] at hempty
        simp at hempty
    | cons c t =>
        have hspace : isspace c = true := by simpa using hafter
        simp [hspace] at hnone
  · exact fun c hc => List.mem_takeWhile_imp hc

/-! ### A call without a query -/

def strncpyOver (dst src : List UInt8) (n : ℕ) : List UInt8 :=
  src.take n ++ (List.replicate (n - src.length) 0 ++ dst.drop n)

/-- The memory at `id_ret` and `key_ret` after a call. -/
def keyStored (found : Option (List UInt8 × List UInt8)) (id_ret key_ret : List UInt8) :
    List UInt8 × List UInt8 :=
  match found with
  | none => (id_ret, key_ret)
  | some (rbuf, kbuf) =>
      (strncpyOver id_ret rbuf (I2MAXIDENTITYLEN + 1), kbuf ++ key_ret.drop I2KEYLEN)

theorem keyLine_none_cases (line : List UInt8) :
    (∃ err, keyLine none line = .reject err) ∨ ∃ record, keyLine none line = .hit record := by
  rw [keyLine]
  split_ifs
  · exact .inl ⟨_, rfl⟩
  · exact .inl ⟨_, rfl⟩
  · exact .inl ⟨_, rfl⟩
  · cases i2HexDecode (keyStart line) I2KEYLEN with
    | none => exact .inl ⟨_, rfl⟩
    | some kbuf => exact .inr ⟨_, rfl⟩

/-- What a call without a query makes of the next data line. -/
theorem i2ParseKeyFile_next {ls : List FileLine} (hls : ∀ raw h, .record raw h ∉ ls)
    {line eol s : List UInt8} (hline : DataText line) (heol : LineEnd eol s) {rc : ℤ}
    (hrc : 0 ≤ rc) (id_ret key_ret : List UInt8) :
    ∃ r, i2ParseKeyFile (some (FileLine.render ls ++ (line ++ (eol ++ s)))) rc none = some r ∧
      (0 < r.rc ↔ ∃ id key, KeyForm line id key) ∧
      (∀ id key, KeyForm line id key → r.rc = rc + ls.length + 1 ∧
        (∃ unused, (keyStored r.found id_ret key_ret).1 = id ++ 0 :: unused) ∧
        (keyStored r.found id_ret key_ret).2.take I2KEYLEN = key) ∧
      ((¬∃ id key, KeyForm line id key) → r.rc = -(rc + ls.length + 1) ∧
        keyStored r.found id_ret key_ret = (id_ret, key_ret)) := by
  have hskips := @readRecords_skips _ (keyLine none) ls (fun raw h hmem => absurd hmem (hls raw h))
    (line ++ (eol ++ s)) rc hrc
  have hrows : 0 ≤ rc + ls.length := by omega
  rcases keyLine_none_cases line with ⟨err, hjudge⟩ | ⟨⟨id, key⟩, hjudge⟩
  · have hnone : ¬∃ id key, KeyForm line id key := by
      rintro ⟨id, key, hform⟩
      have hhit := keyLine_none hform.entry
      rw [hjudge] at hhit
      cases hhit
    have hread := hskips.trans (congrArg _ (readRecords_reject hline heol hrows hjudge))
    refine ⟨_, hread, ?_, fun id key hform => absurd ⟨id, key, hform⟩ hnone, fun _ => ⟨rfl, rfl⟩⟩
    constructor
    · intro hpos
      exact absurd hpos (by simp only [FileRead.print_rc]; omega)
    · exact fun hform => absurd hform hnone
  · have hentry : keyEntry line = some (id, key) := by rw [keyEntry, hjudge]
    have hform := keyEntry_form hentry hline
    have hread := hskips.trans (congrArg _ (readRecords_hit hline heol hrows hjudge))
    refine ⟨_, hread, ?_, ?_, fun hnone => absurd ⟨id, key, hform⟩ hnone⟩
    · exact ⟨fun _ => ⟨id, key, hform⟩, fun _ => by simp only [FileRead.print_rc]; omega⟩
    · intro id' key' hform'
      obtain ⟨rfl, rfl⟩ := Prod.mk.inj (Option.some.inj (hentry.symm.trans hform'.entry))
      have hshort : id.length ≤ 16 := keyEntry_length hentry
      obtain ⟨-, -, -, -, -, -, -, ⟨hkey, -⟩, -⟩ := hform
      refine ⟨rfl, ⟨List.replicate (16 - id.length) 0 ++ id_ret.drop 17, ?_⟩, ?_⟩
      · have htake : id.take 17 = id := List.take_of_length_le (by omega)
        have hpad : 17 - id.length = 16 - id.length + 1 := by omega
        show strncpyOver id_ret id 17 = _
        rw [strncpyOver, htake, hpad, List.replicate_succ, List.cons_append]
      · show (key ++ key_ret.drop I2KEYLEN).take I2KEYLEN = key
        rw [← hkey, List.take_left]

/-- The next data line is returned if it is one of the grammar, and otherwise refused
with nothing stored, as long as its row number is an `int`. -/
theorem i2ParseKeyFile_grammar {ls : List FileLine} (hls : ∀ raw h, .record raw h ∉ ls)
    {line eol s : List UInt8} (hline : DataText line) (heol : LineEnd eol s) {rc : ℤ}
    (hrc : 0 ≤ rc) (hfits : rc + ls.length + 1 ≤ INT_MAX) (id_ret key_ret : List UInt8) :
    ∃ r, IntRow.i2ParseKeyFile (FileLine.render ls ++ (line ++ (eol ++ s))) rc none = some r ∧
      (0 < r.rc ↔ ∃ id key, KeyForm line id key) ∧
      (∀ id key, KeyForm line id key → r.rc = rc + ls.length + 1 ∧
        (∃ unused, (keyStored r.found id_ret key_ret).1 = id ++ 0 :: unused) ∧
        (keyStored r.found id_ret key_ret).2.take I2KEYLEN = key) ∧
      ((¬∃ id key, KeyForm line id key) → r.rc = -(rc + ls.length + 1) ∧
        keyStored r.found id_ret key_ret = (id_ret, key_ret)) := by
  obtain ⟨r, hr, hpos, hform, hnone⟩ := i2ParseKeyFile_next hls hline heol hrc id_ret key_ret
  refine ⟨r, ?_, hpos, hform, hnone⟩
  -- the number that is returned says how many rows have been counted
  obtain ⟨r', hr', hcounts⟩ :=
    readRecords_counts (keyLine none) (FileLine.render ls ++ (line ++ (eol ++ s))) hrc
  obtain rfl := Option.some.inj (hr.symm.trans hr')
  have hvalue : r.rc = rc + ls.length + 1 ∨ r.rc = -(rc + ls.length + 1) := by
    by_cases h : ∃ id key, KeyForm line id key
    · obtain ⟨id, key, h⟩ := h
      exact .inl (hform id key h).1
    · exact .inr (hnone h).1
  rw [IntRow.i2ParseKeyFile, counted, if_pos, hr]
  rw [Counts] at hcounts
  omega

def longestKeyLine : List UInt8 :=
  List.replicate 16 97 ++ ([blank] ++ (List.replicate 32 65 ++ [blank, hash]))

theorem keyForm_longest :
    KeyForm longestKeyLine (List.replicate 16 97) (List.replicate 16 0xAA) :=
  ⟨[blank], List.replicate 32 65, [blank, hash], rfl, by decide, by decide, by decide, by decide,
    .inr ⟨[blank], by decide, by decide, .inr ⟨[], rfl⟩⟩⟩

theorem i2ParseKeyFile_grammar_longest :
    ∃ r, IntRow.i2ParseKeyFile (FileLine.render [.comment [] (by decide), .blank [] .nil] ++
      (longestKeyLine ++ ([nl] ++ []))) 0 none = some r ∧ r.rc = 3 := by
  have hline : DataText longestKeyLine := ⟨by decide, by decide, _, _, rfl, by decide, by decide⟩
  obtain ⟨r, hr, -, haccepted, -⟩ := @i2ParseKeyFile_grammar
    [.comment [] (by decide), .blank [] .nil] (by simp) longestKeyLine [nl] [] hline
    (.newline []) 0 le_rfl (by decide) [] []
  exact ⟨r, hr, (haccepted _ _ keyForm_longest).1⟩

/-- There is no number for a row behind the last one that an `int` counts. -/
theorem not_grammar_longest :
    (∃ id key, KeyForm longestKeyLine id key) ∧
      ¬∃ r, IntRow.i2ParseKeyFile (longestKeyLine ++ [nl]) INT_MAX none = some r ∧ 0 < r.rc := by
  refine ⟨⟨_, _, keyForm_longest⟩, ?_⟩
  rintro ⟨r, hr, -⟩
  have hnone : IntRow.i2ParseKeyFile (longestKeyLine ++ [nl]) INT_MAX none = none := by decide
  exact absurd (hr.symm.trans hnone) (by simp)

/-! ### A call with a query -/

/-- Every data line of the file is a record. -/
def IsKeyFile (fp : List UInt8) : Prop :=
  ∀ x ∈ fileLines fp, ∃ line id key, x = some line ∧ KeyForm line id key

/-- A record is returned if the query begins with its identity, and otherwise skipped. -/
theorem KeyForm.judged {line id key query : List UInt8} (h : KeyForm line id key)
    (hline : (0 : UInt8) ∉ line) (hquery : (0 : UInt8) ∉ query) :
    (id = query.take I2MAXIDENTITYLEN ∧ keyLine (some query) line = .hit (id, key)) ∨
      (id ≠ query.take I2MAXIDENTITYLEN ∧ keyLine (some query) line = .skip) := by
  rw [keyLine_compared h.entry hline hquery]
  by_cases heq : id = query.take I2MAXIDENTITYLEN
  · exact .inl ⟨heq, if_pos heq⟩
  · exact .inr ⟨heq, if_neg heq⟩

theorem KeyForm.unique {line id key id' key' : List UInt8} (h : KeyForm line id key)
    (h' : KeyForm line id' key') : id = id' ∧ key = key' :=
  Prod.mk.inj (Option.some.inj (h.entry.symm.trans h'.entry))

/-- A call on records returns one whose identity is what the query begins with, or there
is none. -/
theorem keyFile_call {lines : List (Option (List UInt8))} {consumed : List (List UInt8)}
    {e : CallEnd (List UInt8 × List UInt8)} {query : List UInt8}
    (h : CallShape (keyLine (some query)) lines consumed e) (hquery : (0 : UInt8) ∉ query)
    (hread : none ∉ lines)
    (hlines : ∀ line, some line ∈ lines → (0 : UInt8) ∉ line ∧ ∃ id key, KeyForm line id key) :
    (e = .eof ∧ ∀ line id key, some line ∈ lines → KeyForm line id key →
        id ≠ query.take I2MAXIDENTITYLEN) ∨
      ∃ line key behind, e = .hit (query.take I2MAXIDENTITYLEN, key) behind ∧
        some line ∈ lines ∧ KeyForm line (query.take I2MAXIDENTITYLEN) key := by
  induction h with
  | eof => exact .inl ⟨rfl, fun _ _ _ hmem => absurd hmem List.not_mem_nil⟩
  | refused => exact absurd List.mem_cons_self hread
  | reject hjudge =>
      obtain ⟨hnul, id, key, hform⟩ := hlines _ List.mem_cons_self
      rcases hform.judged hnul hquery with ⟨-, hhit⟩ | ⟨-, hskip⟩
      · exact absurd (hjudge.symm.trans hhit) (by simp)
      · exact absurd (hjudge.symm.trans hskip) (by simp)
  | @hit line lines record hjudge =>
      obtain ⟨hnul, id, key, hform⟩ := hlines _ List.mem_cons_self
      rcases hform.judged hnul hquery with ⟨rfl, hhit⟩ | ⟨-, hskip⟩
      · cases hjudge.symm.trans hhit
        exact .inr ⟨line, key, lines, rfl, List.mem_cons_self, hform⟩
      · exact absurd (hjudge.symm.trans hskip) (by simp)
  | @skip line lines consumed e hjudge hrest ih =>
      obtain ⟨hnul, id, key, hform⟩ := hlines _ List.mem_cons_self
      rcases hform.judged hnul hquery with ⟨-, hhit⟩ | ⟨hne, -⟩
      · exact absurd (hjudge.symm.trans hhit) (by simp)
      · rcases ih (fun hmem => hread (List.mem_cons_of_mem _ hmem))
            fun line' hmem => hlines line' (List.mem_cons_of_mem _ hmem) with
          ⟨he, hall⟩ | ⟨line', key', behind, he, hmem, hform'⟩
        · refine .inl ⟨he, fun line' id' key' hmem hform' => ?_⟩
          rcases List.mem_cons.mp hmem with hhead | htail
          · obtain rfl := Option.some.inj hhead
            rw [← (hform.unique hform').1]
            exact hne
          · exact hall line' id' key' htail hform'
        · exact .inr ⟨line', key', behind, he, List.mem_cons_of_mem _ hmem, hform'⟩

/-- The call returns a record only if its identity is the whole query. -/
def ReturnsQuery (fp : List UInt8) (rc : ℤ) (query : List UInt8) : Prop :=
  ∃ r, i2ParseKeyFile (some fp) rc (some query) = some r ∧
    (0 < r.rc → ∃ key, r.found = some (query, key))

/-- So it is for queries that are no longer than an identity, and for longer ones if no
record has their beginning as its identity. -/
theorem returnsQuery_iff {fp query : List UInt8} (hfile : IsKeyFile fp)
    (hquery : (0 : UInt8) ∉ query) {rc : ℤ} (hrc : 0 ≤ rc) :
    ReturnsQuery fp rc query ↔ query.length ≤ I2MAXIDENTITYLEN ∨
      ∀ line id key, some line ∈ fileLines fp → KeyForm line id key →
        id ≠ query.take I2MAXIDENTITYLEN := by
  obtain ⟨consumed, e, hshape⟩ := callShape_exists (keyLine (some query)) (fileLines fp)
  obtain ⟨r, hr, hreturns⟩ := hshape.call hrc
  have hread : none ∉ fileLines fp := by
    intro hmem
    obtain ⟨_, _, _, hnone, -⟩ := hfile _ hmem
    cases hnone
  have hlines : ∀ line, some line ∈ fileLines fp →
      (0 : UInt8) ∉ line ∧ ∃ id key, KeyForm line id key := by
    intro line hmem
    obtain ⟨_, id, key, hsome, hform⟩ := hfile _ hmem
    obtain rfl := Option.some.inj hsome
    exact ⟨fileLines_no_nul hmem, id, key, hform⟩
  rcases keyFile_call hshape hquery hread hlines with
    ⟨rfl, hall⟩ | ⟨line, key, behind, rfl, hmem, hform⟩
  · obtain ⟨hzero, -⟩ := hreturns
    exact ⟨fun _ => .inr hall, fun _ => ⟨r, hr, fun hpos => by omega⟩⟩
  · obtain ⟨hlt, hfound, -⟩ := hreturns
    constructor
    · rintro ⟨r', hr', hequal⟩
      obtain rfl := Option.some.inj (hr.symm.trans hr')
      obtain ⟨key', hfound'⟩ := hequal (by omega)
      obtain ⟨htake, -⟩ := Prod.mk.inj (Option.some.inj (hfound.symm.trans hfound'))
      have hlen := congrArg List.length htake
      rw [List.length_take] at hlen
      exact .inl (by omega)
    · rintro (hshort | hnone)
      · rw [List.take_of_length_le hshort] at hfound
        exact ⟨r, hr, fun _ => ⟨key, hfound⟩⟩
      · exact absurd rfl (hnone line _ key hmem hform)

theorem isKeyFile_longest : IsKeyFile (longestKeyLine ++ [nl]) := by
  have hlines : fileLines (longestKeyLine ++ [nl]) = [some longestKeyLine] := by decide
  intro x hx
  rw [hlines, List.mem_singleton] at hx
  exact ⟨longestKeyLine, _, _, hx, keyForm_longest⟩

theorem returnsQuery_longest : ReturnsQuery (longestKeyLine ++ [nl]) 0 (List.replicate 16 97) :=
  (returnsQuery_iff isKeyFile_longest (by decide) le_rfl).mpr (.inl (by decide))

/-- A query that extends a longest identity gets its record. -/
theorem not_returnsQuery_longer :
    ¬ReturnsQuery (longestKeyLine ++ [nl]) 0 (List.replicate 17 97) := by
  rintro ⟨r, hr, hequal⟩
  have hread : i2ParseKeyFile (some (longestKeyLine ++ [nl])) 0 (some (List.replicate 17 97)) =
      some ⟨1, some (List.replicate 16 97, List.replicate 16 0xAA), [], [], none⟩ := by decide
  obtain rfl := Option.some.inj (hread.symm.trans hr)
  obtain ⟨key, hfound⟩ := hequal (by decide)
  obtain ⟨hid, -⟩ := Prod.mk.inj (Option.some.inj hfound)
  exact absurd hid (by decide)

end I2util
