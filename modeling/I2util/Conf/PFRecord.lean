import I2util.Conf.PFFile

/-!
Pass-phrase files made of well-formed records, and what a lookup in them and a
written line give back.
-/

namespace I2util

/-- A record line as the format describes it: an identity, white space, an even
nonzero number of hex digits, and possibly white space at the end. -/
structure PFRecord where
  id : List UInt8
  sep : List UInt8
  digits : List UInt8
  trail : List UInt8
  id_ok : IsIdentity id
  sep_ne : sep ≠ []
  sep_blank : BlankText sep
  digits_ne : digits ≠ []
  digits_even : digits.length % 2 = 0
  digits_hex : ∀ c ∈ digits, isHexDigit c = true
  trail_blank : BlankText trail

namespace PFRecord

def raw (r : PFRecord) : List UInt8 := r.id ++ (r.sep ++ (r.digits ++ r.trail))

def bytes (r : PFRecord) : List UInt8 := (i2HexDecode r.digits (r.digits.length / 2)).getD []

/-- The file made of some records. `eol` ends the last line. -/
def render (rs : List PFRecord) (eol : List UInt8) : List UInt8 := joinLines (rs.map raw) eol

def renderCopy (rs : List PFRecord) : List UInt8 := rs.flatMap fun r => r.raw ++ [nl]

theorem decode_digits (r : PFRecord) :
    i2HexDecode r.digits (r.digits.length / 2) = some r.bytes := by
  have hlen : r.digits.length = 2 * (r.digits.length / 2) := by
    have := r.digits_even
    omega
  have hsome := (i2HexDecode_isSome (s := []) hlen).mpr r.digits_hex
  rw [List.append_nil, Option.isSome_iff_exists] at hsome
  obtain ⟨bytes, hbytes⟩ := hsome
  simp [PFRecord.bytes, hbytes]

theorem not_isspace_digits (r : PFRecord) : ∀ c ∈ r.digits, isspace c = false := fun c hc =>
  (not_isspace_hexDigit (r.digits_hex c hc)).1

theorem dataText (r : PFRecord) : DataText r.raw := by
  have hblank : ∀ ws, BlankText ws → nl ∉ ws ∧ (0 : UInt8) ∉ ws := fun ws h =>
    ⟨fun hmem => (h _ hmem).2 rfl, fun hmem => by simpa using (h _ hmem).1⟩
  have hdigits : nl ∉ r.digits ∧ (0 : UInt8) ∉ r.digits :=
    ⟨fun hmem => by simpa using r.not_isspace_digits _ hmem,
      fun hmem => (not_isspace_hexDigit (r.digits_hex _ hmem)).2.1 rfl⟩
  apply r.id_ok.dataText
  · simp [(hblank _ r.sep_blank).1, hdigits.1, (hblank _ r.trail_blank).1]
  · simp [(hblank _ r.sep_blank).2, hdigits.2, (hblank _ r.trail_blank).2]

/-- `I2ParsePFFile` accepts a well-formed record and returns what it holds. -/
theorem entry (r : PFRecord) : pfEntry r.raw = some (r.id, r.bytes) := by
  have hsep : Scan.Stops (fun c => !isspace c) (r.sep ++ (r.digits ++ r.trail)) :=
    Scan.stops_append_of_all r.sep_ne fun c hc => by simp [(r.sep_blank c hc).1]
  have hid : r.raw.takeWhile (fun c => !isspace c) = r.id := r.id_ok.takeWhile_append hsep
  have hrest : r.raw.drop (strcspn r.raw) = r.sep ++ (r.digits ++ r.trail) :=
    r.id_ok.drop_strcspn hsep
  obtain ⟨c, ws, hws⟩ := List.exists_cons_of_ne_nil r.sep_ne
  have hc := r.sep_blank c (by simp [hws])
  have hdigits : Scan.Stops isspace (r.digits ++ r.trail) :=
    Scan.stops_append_of_all r.digits_ne r.not_isspace_digits
  have hhex : hexStart r.raw = r.digits ++ r.trail := by
    rw [hexStart, hrest, hws, List.cons_append, List.tail_cons]
    exact Scan.dropWhile_append (fun d hd => (r.sep_blank d (by simp [hws, hd])).1) hdigits
  have htrail : Scan.Stops (fun c => !isspace c) r.trail :=
    Scan.stops_of_all fun c hc => by simp [(r.trail_blank c hc).1]
  have hlen : strcspn (r.digits ++ r.trail) = r.digits.length := by
    rw [strcspn, Scan.takeWhile_append (fun c hc => by simp [r.not_isspace_digits c hc]) htrail]
  rw [pfEntry_iff, hid, hrest, hhex, hlen, List.drop_left, List.take_left]
  refine ⟨rfl, ?_, ?_, r.digits_even, ?_, r.decode_digits⟩
  · rw [hws]
    exact hc.1
  · simpa using r.digits_ne
  · exact Scan.dropWhile_of_all fun d hd => (r.trail_blank d hd).1

theorem pfLine_raw (r : PFRecord) {query : List UInt8} (hne : query ≠ [])
    (hquery : (0 : UInt8) ∉ query) :
    pfLine (some query) r.raw =
      if Comparable r.id query then .hit (r.id, r.bytes) else .skip :=
  pfLine_query r.entry r.dataText.no_nul hquery hne

/-! ### Reading a file of records -/

variable {eol query : List UInt8} {rc : ℤ}

theorem i2ParsePFFile_skip {r : PFRecord} {rs : List PFRecord} (heol : FileEnd eol)
    (hne : query ≠ []) (hquery : (0 : UInt8) ∉ query) (hrc : 0 ≤ rc)
    (hr : ¬Comparable r.id query) :
    i2ParsePFFile (some (render (r :: rs) eol)) rc (some query) =
      (i2ParsePFFile (some (render rs eol)) (rc + 1) (some query)).map
        (FileRead.print (r.raw ++ [nl])) := by
  obtain ⟨e, he, hend⟩ := joinLines_cons r.raw (rs.map raw) heol
  have hjudge : pfLine (some query) r.raw = .skip := by
    rw [r.pfLine_raw hne hquery, if_neg hr]
  simp only [i2ParsePFFile, render, List.map_cons, he]
  exact readRecords_skip r.dataText hend hrc hjudge

theorem i2ParsePFFile_hit {r : PFRecord} {rs : List PFRecord} (heol : FileEnd eol)
    (hne : query ≠ []) (hquery : (0 : UInt8) ∉ query) (hrc : 0 ≤ rc)
    (hr : Comparable r.id query) :
    i2ParsePFFile (some (render (r :: rs) eol)) rc (some query) =
      some ⟨rc + 1, some (r.id, r.bytes), render rs eol, [], none⟩ := by
  obtain ⟨e, he, hend⟩ := joinLines_cons r.raw (rs.map raw) heol
  have hjudge : pfLine (some query) r.raw = .hit (r.id, r.bytes) := by
    rw [r.pfLine_raw hne hquery, if_pos hr]
  simp only [i2ParsePFFile, render, List.map_cons, he]
  exact readRecords_hit r.dataText hend hrc hjudge

theorem i2ParsePFFile_skips {pre post : List PFRecord} (heol : FileEnd eol)
    (hne : query ≠ []) (hquery : (0 : UInt8) ∉ query) (hrc : 0 ≤ rc)
    (hpre : ∀ r ∈ pre, ¬Comparable r.id query) :
    i2ParsePFFile (some (render (pre ++ post) eol)) rc (some query) =
      (i2ParsePFFile (some (render post eol)) (rc + pre.length) (some query)).map
        (FileRead.print (renderCopy pre)) := by
  induction pre generalizing rc with
  | nil =>
      cases h : i2ParsePFFile (some (render post eol)) rc (some query) <;>
        simp [h, renderCopy]
  | cons r pre ih =>
      have hr := hpre r List.mem_cons_self
      have ih := ih (show 0 ≤ rc + 1 by omega) fun x hx => hpre x (List.mem_cons_of_mem r hx)
      have hrows : rc + 1 + (pre.length : ℤ) = rc + ((r :: pre).length : ℕ) := by
        simp only [List.length_cons]
        omega
      rw [List.cons_append, i2ParsePFFile_skip heol hne hquery hrc hr, ih, hrows,
        Option.map_map]
      congr 1
      funext x
      simp [renderCopy]

/-- What a lookup returns: the first record comparable with the query. -/
theorem i2ParsePFFile_first {pre post : List PFRecord} {r : PFRecord} (heol : FileEnd eol)
    (hne : query ≠ []) (hquery : (0 : UInt8) ∉ query) (hrc : 0 ≤ rc)
    (hpre : ∀ x ∈ pre, ¬Comparable x.id query) (hr : Comparable r.id query) :
    i2ParsePFFile (some (render (pre ++ r :: post) eol)) rc (some query) =
      some ⟨rc + pre.length + 1, some (r.id, r.bytes), render post eol, renderCopy pre,
        none⟩ := by
  rw [i2ParsePFFile_skips heol hne hquery hrc hpre,
    i2ParsePFFile_hit heol hne hquery (by omega) hr]
  simp [FileRead.print]

theorem i2ParsePFFile_none {rs : List PFRecord} (heol : FileEnd eol)
    (hne : query ≠ []) (hquery : (0 : UInt8) ∉ query) (hrc : 0 ≤ rc)
    (hrs : ∀ x ∈ rs, ¬Comparable x.id query) :
    i2ParsePFFile (some (render rs eol)) rc (some query) =
      some ⟨0, none, [], renderCopy rs, none⟩ := by
  have h : i2ParsePFFile (some (render (rs ++ []) eol)) rc (some query) = _ :=
    i2ParsePFFile_skips heol hne hquery hrc hrs
  rw [List.append_nil] at h
  rw [h]
  simp [render, joinLines, i2ParsePFFile, FileRead.print]

/-! ### Looking an identity up -/

/-- An exact lookup: only a record whose identity is the query is returned, the
first such record is, with the lines before it copied, and without one the whole
file is copied and 0 returned. -/
def ExactLookup (rs : List PFRecord) (eol query : List UInt8) (rc : ℤ) : Prop :=
  ∃ r, i2ParsePFFile (some (render rs eol)) rc (some query) = some r ∧
    (0 < r.rc → ∃ x ∈ rs, r.found = some (x.id, x.bytes) ∧ x.id = query) ∧
    (∀ pre x post, rs = pre ++ x :: post → (∀ y ∈ pre, y.id ≠ query) → x.id = query →
      r = ⟨rc + pre.length + 1, some (x.id, x.bytes), render post eol, renderCopy pre,
        none⟩) ∧
    ((∀ x ∈ rs, x.id ≠ query) → r = ⟨0, none, [], renderCopy rs, none⟩)

def FirstComparableEqual (rs : List PFRecord) (query : List UInt8) : Prop :=
  ∀ x ∈ rs.find? fun r => decide (Comparable r.id query), x.id = query

instance (rs : List PFRecord) (query : List UInt8) :
    Decidable (FirstComparableEqual rs query) :=
  inferInstanceAs (Decidable (∀ x ∈ rs.find? _, _))

/-- The lookup is exact if and only if no record that is merely comparable with
the query stands before the one that is equal to it. -/
theorem exactLookup_iff (rs : List PFRecord) (heol : FileEnd eol) (hne : query ≠ [])
    (hquery : (0 : UInt8) ∉ query) (hrc : 0 ≤ rc) :
    ExactLookup rs eol query rc ↔ FirstComparableEqual rs query := by
  rw [FirstComparableEqual]
  cases hfind : rs.find? fun r => decide (Comparable r.id query) with
  | some x =>
      -- the call returns the first comparable record
      obtain ⟨hx, pre, post, rfl, hpre⟩ := List.find?_eq_some_iff_append.mp hfind
      simp only [decide_eq_true_eq, Bool.not_eq_true', decide_eq_false_iff_not] at hx hpre
      have hread : i2ParsePFFile (some (render (pre ++ x :: post) eol)) rc (some query) = _ :=
        i2ParsePFFile_first heol hne hquery hrc hpre hx
      have hpre_ne : ∀ y ∈ pre, y.id ≠ query := fun y hy heq =>
        hpre y hy (heq ▸ comparable_self _)
      simp only [Option.mem_def, Option.some.injEq, forall_eq']
      constructor
      · rintro ⟨r, hr, hfound, -, -⟩
        obtain rfl := Option.some.inj (hread.symm.trans hr)
        obtain ⟨z, -, hz, hzid⟩ := hfound (by simp only; omega)
        simp only [Option.some.injEq, Prod.mk.injEq] at hz
        exact hz.1.trans hzid
      · intro hxid
        refine ⟨_, hread, fun _ => ⟨x, by simp, rfl, hxid⟩, ?_, ?_⟩
        · intro pre' x' post' hsplit hpre' hx'
          obtain ⟨rfl, rfl, rfl⟩ := Scan.first_unique (P := fun r : PFRecord => r.id = query)
            hsplit hpre_ne hxid hpre' hx'
          rfl
        · intro hall
          exact absurd hxid (hall x (by simp))
  | none =>
      have hnone : ∀ x ∈ rs, ¬Comparable x.id query := by
        simpa using List.find?_eq_none.mp hfind
      have hread := i2ParsePFFile_none heol hne hquery hrc hnone
      refine ⟨fun _ => by simp, fun _ => ⟨_, hread, fun hpos => absurd hpos (by simp), ?_,
        fun _ => rfl⟩⟩
      rintro pre x post rfl - hxid
      exact absurd (hxid ▸ comparable_self _) (hnone x (by simp))

def jdoe : PFRecord where
  id := ascii "jdoe"
  sep := [tab]
  digits := ascii "74657374"
  trail := []
  id_ok := ⟨by decide, by decide, by decide⟩
  sep_ne := by decide
  sep_blank := by unfold BlankText; decide
  digits_ne := by decide
  digits_even := by decide
  digits_hex := by decide
  trail_blank := by unfold BlankText; decide

theorem exactLookup_jdoe : ExactLookup [jdoe] [nl] (ascii "jdoe") 0 :=
  (exactLookup_iff [jdoe] (.inl rfl) (by decide) (by decide) le_rfl).mpr (by decide)

/-- A query that extends the identity of the record gets the record. -/
theorem not_exactLookup_jdoe2 : ¬ExactLookup [jdoe] [nl] (ascii "jdoe2") 0 := by
  rintro ⟨r, hr, hfound, -, -⟩
  have hread : i2ParsePFFile (some (render [jdoe] [nl])) 0 (some (ascii "jdoe2")) =
      some ⟨1, some (ascii "jdoe", ascii "test"), [], [], none⟩ := by decide
  obtain rfl := Option.some.inj (hread.symm.trans hr)
  obtain ⟨x, hx, -, hid⟩ := hfound (by decide)
  obtain rfl := List.mem_singleton.mp hx
  exact absurd hid (by decide)

/-! ### Reading a written line back -/

def ofBytes (id bytes : List UInt8) (hid : IsIdentity id) (hne : bytes ≠ []) : PFRecord where
  id := id
  sep := [tab]
  digits := i2HexEncode bytes
  trail := []
  id_ok := hid
  sep_ne := by simp
  sep_blank := by simp [BlankText]
  digits_ne := by
    cases bytes with
    | nil => exact absurd rfl hne
    | cons b bs => simp
  digits_even := by simp
  digits_hex := fun _ hc => isHexDigit_of_mem_encode hc
  trail_blank := by simp [BlankText]

theorem ofBytes_raw {id bytes : List UInt8} (hid : IsIdentity id) (hne : bytes ≠ []) :
    (ofBytes id bytes hid hne).raw = id ++ tab :: i2HexEncode bytes := by
  simp [raw, ofBytes]

theorem ofBytes_bytes {id bytes : List UInt8} (hid : IsIdentity id) (hne : bytes ≠ []) :
    (ofBytes id bytes hid hne).bytes = bytes := by
  simp [PFRecord.bytes, ofBytes, i2HexDecode_encode]

/-- A line with an identity and nothing after the separator is refused. -/
theorem pfLine_no_digits {id : List UInt8} (hid : IsIdentity id) :
    pfLine none (id ++ [tab]) = .reject none := by
  have hrest : (id ++ [tab]).drop (strcspn (id ++ [tab])) = [tab] := hid.drop_strcspn (by simp)
  have hhex : hexStart (id ++ [tab]) = [] := by
    rw [hexStart, hrest]
    rfl
  have hlen : strcspn [] = 0 := rfl
  simp only [pfLine, pfSkips, hrest, hhex, hlen]
  simp [startsSpace]

/-- The law of the writer and the reader: a line written without an error is read
back as the identity and the pass-phrase it was written from. -/
def ReadsBack (id bytes : List UInt8) : Prop :=
  (i2WritePFLine id bytes).1 = 0 →
    ∀ rc, 0 ≤ rc → ∀ query, query = none ∨ query = some id →
      ∃ r, i2ParsePFFile (some (i2WritePFLine id bytes).2) rc query = some r ∧
        0 < r.rc ∧ r.found = some (id, bytes)

/-- The law holds exactly for the nonempty pass-phrases, apart from identities
too long for any line to be written. -/
theorem readsBack_iff {id bytes : List UInt8} (hid : IsIdentity id) :
    ReadsBack id bytes ↔ bytes ≠ [] ∨ 2147483647 < id.length + 2 := by
  have hwrite : i2WritePFLine id bytes = _ := i2WritePFLine_eq hid.ne_nil
  by_cases hfits : id.length + 2 * bytes.length + 2 ≤ 2147483647
  · rw [if_pos hfits] at hwrite
    constructor
    · intro hback
      by_contra hcon
      simp only [ne_eq, not_or, not_not] at hcon
      obtain ⟨rfl, -⟩ := hcon
      -- without bytes the line ends behind the tab, and is refused
      obtain ⟨r, hr, hpos, -⟩ := hback (by rw [hwrite]) 0 le_rfl none (.inl rfl)
      have hdata : DataText (id ++ [tab]) := hid.dataText (by decide) (by decide)
      have hread : readRecords (pfLine none) (id ++ [tab] ++ ([nl] ++ [])) 0 = _ :=
        readRecords_reject hdata (.newline []) le_rfl (pfLine_no_digits hid)
      rw [hwrite] at hr
      simp only [i2HexEncode_nil, List.append_assoc, List.cons_append, List.nil_append,
        i2ParsePFFile] at hr hread
      obtain rfl := Option.some.inj (hread.symm.trans hr)
      exact absurd hpos (by decide)
    · intro hne _ rc hrc query hquery
      have hne : bytes ≠ [] := by
        rcases hne with hne | hlong
        · exact hne
        · omega
      have hraw := ofBytes_raw hid hne
      have hentry := (ofBytes id bytes hid hne).entry
      rw [ofBytes_bytes] at hentry
      have hjudge : pfLine query (ofBytes id bytes hid hne).raw = .hit (id, bytes) := by
        rcases hquery with rfl | rfl
        · exact pfLine_of_entry hentry
        · rw [pfLine_query hentry (ofBytes id bytes hid hne).dataText.no_nul hid.no_nul
            hid.ne_nil]
          exact if_pos (comparable_self id)
      have hread := readRecords_hit (ofBytes id bytes hid hne).dataText (.newline []) hrc hjudge
      refine ⟨⟨rc + 1, some (id, bytes), [], [], none⟩, ?_, by simp only; omega, rfl⟩
      rw [hwrite]
      simpa [i2ParsePFFile, hraw] using hread
  · rw [if_neg hfits] at hwrite
    constructor
    · intro _
      by_cases hne : bytes = []
      · subst hne
        exact .inr (Nat.lt_of_not_le hfits)
      · exact .inl hne
    · intro _ h0
      rw [hwrite] at h0
      exact absurd h0 (by decide)

theorem readsBack_jdoe : ReadsBack (ascii "jdoe") (ascii "test") :=
  (readsBack_iff ⟨by decide, by decide, by decide⟩).mpr (.inl (by decide))

/-- An empty pass-phrase is written without an error and refused when read. -/
theorem not_readsBack_empty : ¬ReadsBack (ascii "jdoe") [] := by
  intro hback
  obtain ⟨r, hr, hpos, -⟩ := hback (by decide) 0 le_rfl none (.inl rfl)
  have hread : i2ParsePFFile (some (i2WritePFLine (ascii "jdoe") []).2) 0 none =
      some ⟨-1, none, [], [], none⟩ := by decide
  obtain rfl := Option.some.inj (hread.symm.trans hr)
  exact absurd hpos (by decide)

end PFRecord

end I2util
