import I2util.Conf.DataLines
import I2util.Conf.PFRecord

/-!
Which lines of a pass-phrase file are checked when the file is read to its end, with a
query or without one.
-/

namespace I2util

/-! ### Calls on data lines -/

section Calls

variable {ρ : Type} {judge : List UInt8 → Verdict ρ} {lines : List (Option (List UInt8))}
  {consumed : List (List UInt8)} {e : CallEnd ρ}

def CallEnd.Refuses : CallEnd ρ → Prop
  | .refused _ => True
  | _ => False

def EndsWell (judge : List UInt8 → Verdict ρ) : List (Option (List UInt8)) → Prop
  | [] => True
  | none :: _ => False
  | some line :: lines =>
      match judge line with
      | .reject _ => False
      | .skip => EndsWell judge lines
      | .hit _ => True

/-- When the calls read the lines one after the other, as far as they go, a line that is
skipped is valid, unless the next line that is not skipped is refused. -/
def SkipsValid (judge : List UInt8 → Verdict ρ) (Valid : List UInt8 → Prop) :
    List (Option (List UInt8)) → Prop
  | [] => True
  | none :: _ => True
  | some line :: lines =>
      match judge line with
      | .reject _ => True
      | .skip => (EndsWell judge lines → Valid line) ∧ SkipsValid judge Valid lines
      | .hit _ => SkipsValid judge Valid lines

def TakesAll (judge : List UInt8 → Verdict ρ) : List (Option (List UInt8)) → Prop
  | [] => True
  | none :: _ => False
  | some line :: lines =>
      match judge line with
      | .reject _ => False
      | _ => TakesAll judge lines

theorem CallShape.endsWell_iff (h : CallShape judge lines consumed e) :
    EndsWell judge lines ↔ ¬e.Refuses := by
  induction h with
  | eof => simp [EndsWell, CallEnd.Refuses]
  | refused => simp [EndsWell, CallEnd.Refuses]
  | reject hjudge => simp [EndsWell, CallEnd.Refuses, hjudge]
  | hit hjudge => simp [EndsWell, CallEnd.Refuses, hjudge]
  | skip hjudge _ ih => simpa [EndsWell, hjudge] using ih

theorem CallShape.behind_length {record : ρ} {behind : List (Option (List UInt8))}
    (h : CallShape judge lines consumed (.hit record behind)) : behind.length < lines.length := by
  generalize he : CallEnd.hit record behind = e at h
  induction h with
  | eof => cases he
  | refused => cases he
  | reject _ => cases he
  | hit _ =>
      cases he
      exact Nat.lt_succ_self _
  | skip _ _ ih => exact Nat.lt_succ_of_lt (ih he)

theorem CallShape.refused_cases {fetched : Bool}
    (h : CallShape judge lines consumed (.refused fetched)) :
    lines.head? = some none ∨ consumed ≠ [] ∨ fetched = true := by
  cases h with
  | refused => exact .inl rfl
  | reject _ => exact .inr (.inr rfl)
  | skip _ _ => exact .inr (.inl (by simp))

theorem CallShape.skipsValid_iff {Valid : List UInt8 → Prop}
    (h : CallShape judge lines consumed e)
    (hhit : ∀ line record, some line ∈ lines → judge line = .hit record → Valid line) :
    SkipsValid judge Valid lines ↔ (¬e.Refuses → ∀ line ∈ consumed, Valid line) ∧
      ∀ record behind, e = .hit record behind → SkipsValid judge Valid behind := by
  induction h with
  | eof => simp [SkipsValid]
  | refused => simp [SkipsValid]
  | reject hjudge => simp [SkipsValid, hjudge]
  | @hit line lines record hjudge =>
      have hvalid := hhit line record List.mem_cons_self hjudge
      simp [SkipsValid, hjudge, hvalid]
  | @skip line lines consumed e hjudge hrest ih =>
      have ih := ih fun line record hmem => hhit line record (List.mem_cons_of_mem _ hmem)
      rw [SkipsValid]
      simp only [hjudge, hrest.endsWell_iff, ih, List.mem_cons, forall_eq_or_imp]
      tauto

theorem CallShape.takesAll_iff (h : CallShape judge lines consumed e) :
    TakesAll judge lines ↔
      ¬e.Refuses ∧ ∀ record behind, e = .hit record behind → TakesAll judge behind := by
  induction h with
  | eof => simp [TakesAll, CallEnd.Refuses]
  | refused => simp [TakesAll, CallEnd.Refuses]
  | reject hjudge => simp [TakesAll, CallEnd.Refuses, hjudge]
  | hit hjudge => simp [TakesAll, CallEnd.Refuses, hjudge]
  | skip hjudge _ ih => simpa [TakesAll, hjudge] using ih

theorem TakesAll.endsWell (h : TakesAll judge lines) : EndsWell judge lines := by
  obtain ⟨consumed, e, hshape⟩ := callShape_exists judge lines
  exact hshape.endsWell_iff.mpr (hshape.takesAll_iff.mp h).1

/-! ### Reading a file to its end -/

/-- The stream and the row counter after some calls that have returned a record. -/
inductive ReadsTo (judge : List UInt8 → Verdict ρ) : List UInt8 → ℤ → List UInt8 → ℤ → Prop
  | here {fp : List UInt8} {rc : ℤ} : ReadsTo judge fp rc fp rc
  | call {fp fp' : List UInt8} {rc rc' : ℤ} {r : FileRead ρ}
      (hread : readRecords judge fp rc = some r) (hrc : 0 < r.rc)
      (hrest : ReadsTo judge r.rest r.rc fp' rc') : ReadsTo judge fp rc fp' rc'

def Accepts (judge : List UInt8 → Verdict ρ) (fp : List UInt8) (rc : ℤ) : Prop :=
  ∃ fp' rc' r, ReadsTo judge fp rc fp' rc' ∧ readRecords judge fp' rc' = some r ∧ r.rc = 0

variable {fp : List UInt8} {rc : ℤ} {r : FileRead ρ}

theorem accepts_call (hread : readRecords judge fp rc = some r) (hrc : 0 < r.rc) :
    Accepts judge fp rc ↔ Accepts judge r.rest r.rc := by
  constructor
  · rintro ⟨fp', rc', r', hto, hread', hzero⟩
    cases hto with
    | here =>
        obtain rfl := Option.some.inj (hread.symm.trans hread')
        omega
    | call hread'' hrc'' hrest =>
        obtain rfl := Option.some.inj (hread.symm.trans hread'')
        exact ⟨fp', rc', r', hrest, hread', hzero⟩
  · rintro ⟨fp', rc', r', hto, hread', hzero⟩
    exact ⟨fp', rc', r', .call hread hrc hto, hread', hzero⟩

theorem accepts_last (hread : readRecords judge fp rc = some r) (hrc : r.rc ≤ 0) :
    Accepts judge fp rc ↔ r.rc = 0 := by
  constructor
  · rintro ⟨fp', rc', r', hto, hread', hzero⟩
    cases hto with
    | here =>
        obtain rfl := Option.some.inj (hread.symm.trans hread')
        exact hzero
    | call hread'' hrc'' _ =>
        obtain rfl := Option.some.inj (hread.symm.trans hread'')
        omega
  · intro hzero
    exact ⟨fp, rc, r, .here, hread, hzero⟩

/-- A file is accepted if none of its lines is refused. The line reader returns 0 in the
first row of a file also when it refuses that row, which is the same for every
judgement. -/
theorem accepts_iff (hrc : 0 ≤ rc) (hfirst : 0 < rc ∨ (fileLines fp).head? ≠ some none) :
    Accepts judge fp rc ↔ TakesAll judge (fileLines fp) := by
  induction hlen : (fileLines fp).length using Nat.strongRecOn generalizing fp rc with
  | _ n ih =>
      subst hlen
      obtain ⟨consumed, e, hshape⟩ := callShape_exists judge (fileLines fp)
      obtain ⟨r, hread, hreturns⟩ := hshape.call hrc
      rw [hshape.takesAll_iff]
      cases e with
      | eof =>
          obtain ⟨hzero, -⟩ := hreturns
          rw [accepts_last hread (by omega)]
          simp [hzero, CallEnd.Refuses]
      | refused fetched =>
          obtain ⟨hle, -, hneg⟩ := hreturns
          have hlt : r.rc < 0 := by
            apply hneg
            rcases hfirst with hpos | hhead
            · exact .inl hpos
            · exact .inr (hshape.refused_cases.resolve_left hhead)
          rw [accepts_last hread hle]
          simp [CallEnd.Refuses, hlt.ne]
      | hit record behind =>
          obtain ⟨hlt, -, hbehind⟩ := hreturns
          have hshort := hshape.behind_length
          rw [accepts_call hread (by omega), ih _ (by rw [hbehind]; exact hshort) (by omega)
            (.inl (by omega)) rfl, hbehind]
          simp [CallEnd.Refuses]

/-- With a row in front that the line reader refuses, all judgements agree. -/
theorem accepts_refused (hrc : 0 ≤ rc) (hfirst : (fileLines fp).head? = some none)
    (judge' : List UInt8 → Verdict ρ) : Accepts judge fp rc ↔ Accepts judge' fp rc := by
  have hfetch := parsefileline_lines fp hrc
  obtain ⟨lines, hlines⟩ : ∃ lines, fileLines fp = none :: lines := by
    cases h : fileLines fp with
    | nil => simp [h] at hfirst
    | cons x lines =>
        rw [h, List.head?_cons] at hfirst
        exact ⟨lines, by rw [Option.some.inj hfirst]⟩
  rw [hlines] at hfetch
  have hread : ∀ judge : List UInt8 → Verdict ρ, readRecords judge fp rc =
      some ⟨(parsefileline fp rc).rc, none, (parsefileline fp rc).rest,
        [] ++ (parsefileline fp rc).out, (parsefileline fp rc).err⟩ := by
    intro judge
    rw [readRecords_eq, readRecords.body_none rfl hfetch.1]
  rw [accepts_last (hread judge) hfetch.1, accepts_last (hread judge') hfetch.1]

end Calls

/-! ### The lines of a pass-phrase file -/

/-- The syntax of a line: an identity, white space, an even nonzero number of hex digits,
and possibly white space. -/
def PFValid (line : List UInt8) : Prop := ∃ p : PFRecord, p.raw = line

/-- The checks of a line that is not skipped do not depend on the query. -/
theorem pfLine_eq (id_query : Option (List UInt8)) (line : List UInt8) :
    pfLine id_query line =
      if startsSpace (line.drop (strcspn line)) = false then .reject none
      else if pfSkips id_query line = true then .skip else pfLine none line := by
  rw [pfLine]
  split_ifs with hsep hskip
  · rfl
  · rfl
  · rw [pfLine, if_neg hsep]
    rfl

theorem pfLine_none_cases (line : List UInt8) :
    (∃ err, pfLine none line = .reject err) ∨ ∃ record, pfLine none line = .hit record := by
  rw [pfLine]
  split_ifs with hsep hskip
  · exact .inl ⟨_, rfl⟩
  · cases hskip
  · simp only
    split_ifs
    · exact .inl ⟨_, rfl⟩
    · cases i2HexDecode ((hexStart line).take (strcspn (hexStart line)))
          (strcspn (hexStart line) / 2) with
      | none => exact .inl ⟨_, rfl⟩
      | some pf => exact .inr ⟨_, rfl⟩

theorem pfLine_hit {id_query : Option (List UInt8)} {line : List UInt8}
    {record : List UInt8 × List UInt8} (h : pfLine id_query line = .hit record) :
    pfLine none line = .hit record := by
  rw [pfLine_eq] at h
  split_ifs at h
  exact h

theorem pfLine_reject {id_query : Option (List UInt8)} {line : List UInt8}
    {err : Option ErrMsg} (h : pfLine id_query line = .reject err) :
    pfLine none line = .reject err := by
  rw [pfLine_eq] at h
  split_ifs at h with hsep
  · rw [pfLine_eq, if_pos hsep, h]
  · exact h

theorem PFValid.entry {line : List UInt8} (h : PFValid line) :
    ∃ record, pfLine none line = .hit record := by
  obtain ⟨p, rfl⟩ := h
  exact ⟨_, pfLine_of_entry p.entry⟩

/-- The parts of a line with white space behind its first word. `digits` are the digits only
in a line that is accepted. -/
structure PFParts where
  id : List UInt8
  space : UInt8
  sep : List UInt8
  digits : List UInt8
  trail : List UInt8
  rest : List UInt8
  id_word : ∀ c ∈ id, isspace c = false
  space_isspace : isspace space = true
  sep_isspace : ∀ c ∈ sep, isspace c = true
  sep_stops : Scan.Stops isspace (digits ++ (trail ++ rest))
  digits_word : ∀ c ∈ digits, isspace c = false
  digits_stops : Scan.Stops (fun c => !isspace c) (trail ++ rest)
  trail_isspace : ∀ c ∈ trail, isspace c = true
  rest_stops : Scan.Stops isspace rest

/-- The text in front of the white space is the first word. -/
def PFParts.line (p : PFParts) : List UInt8 :=
  p.id ++ p.space :: (p.sep ++ (p.digits ++ (p.trail ++ p.rest)))

theorem exists_pfParts {line : List UInt8}
    (hsep : startsSpace (line.drop (strcspn line)) = true) : ∃ p : PFParts, p.line = line := by
  have hword : ∀ s : List UInt8, ∀ c ∈ s.takeWhile fun c => !isspace c, isspace c = false :=
    fun s c hc => by simpa using List.mem_takeWhile_imp hc
  cases htail : line.drop (strcspn line) with
  | nil => simp [htail, startsSpace] at hsep
  | cons c t =>
      rw [htail] at hsep
      have hline : line = (line.takeWhile fun c => !isspace c) ++ c :: t := by
        rw [← take_strcspn, ← htail, List.take_append_drop]
      have hhex := @List.takeWhile_append_dropWhile _ isspace t
      have hstop := Scan.stops_dropWhile isspace t
      generalize t.dropWhile isspace = hex at hhex hstop
      -- the digits end at white space or with the line
      have hdigits := @List.takeWhile_append_dropWhile _ (fun c => !isspace c) hex
      have hend := Scan.stops_dropWhile (fun c => !isspace c) hex
      generalize hex.dropWhile (fun c => !isspace c) = tail at hdigits hend
      have htrail := @List.takeWhile_append_dropWhile _ isspace tail
      refine ⟨⟨line.takeWhile fun c => !isspace c, c, t.takeWhile isspace,
        hex.takeWhile fun c => !isspace c, tail.takeWhile isspace, tail.dropWhile isspace,
        hword line, hsep, fun d hd => List.mem_takeWhile_imp hd, ?_, hword hex, ?_,
        fun d hd => List.mem_takeWhile_imp hd, Scan.stops_dropWhile isspace tail⟩, ?_⟩
      · rwa [htrail, hdigits]
      · rwa [htrail]
      · show (line.takeWhile fun c => !isspace c) ++ c :: (t.takeWhile isspace ++
          ((hex.takeWhile fun c => !isspace c) ++
            (tail.takeWhile isspace ++ tail.dropWhile isspace))) = line
        rw [htrail, hdigits, hhex, ← hline]

namespace PFParts

variable (p : PFParts)

theorem strcspn_line : strcspn p.line = p.id.length := by
  rw [strcspn, line, Scan.takeWhile_append (fun c hc => by simp [p.id_word c hc])
    (by simp [p.space_isspace])]

theorem spaces : (p.sep ++ (p.digits ++ (p.trail ++ p.rest))).takeWhile isspace = p.sep :=
  Scan.takeWhile_append p.sep_isspace p.sep_stops

theorem hexStart_line : hexStart p.line = p.digits ++ (p.trail ++ p.rest) := by
  rw [hexStart, p.strcspn_line, line, List.drop_left, List.tail_cons,
    Scan.dropWhile_append p.sep_isspace p.sep_stops]

theorem strcspn_digits : strcspn (p.digits ++ (p.trail ++ p.rest)) = p.digits.length := by
  rw [strcspn, Scan.takeWhile_append (fun c hc => by simp [p.digits_word c hc]) p.digits_stops]

theorem rest_eq :
    ((p.digits ++ (p.trail ++ p.rest)).drop p.digits.length).dropWhile isspace = p.rest := by
  rw [List.drop_left, Scan.dropWhile_append p.trail_isspace p.rest_stops]

end PFParts

/-- A data line that is returned has the syntax. -/
theorem pfValid_of_hit {line : List UInt8} {record : List UInt8 × List UInt8}
    (h : pfLine none line = .hit record) (hline : line = [] ∨ DataText line) : PFValid line := by
  have hentry : pfEntry line = some record := by rw [pfEntry, h]
  obtain ⟨-, hsep, hne, heven, hts, hdecode⟩ := pfEntry_iff.mp hentry
  obtain ⟨p, rfl⟩ := exists_pfParts hsep
  rw [p.hexStart_line, p.strcspn_digits] at hne heven hts hdecode
  rw [p.rest_eq] at hts
  rw [List.take_left] at hdecode
  have hraw : p.id ++ ((p.space :: p.sep) ++ (p.digits ++ p.trail)) = p.line := by
    rw [PFParts.line, hts, List.append_nil]
    rfl
  have hdata := hline.resolve_left (by simp [PFParts.line])
  have hmem : ∀ d ∈ p.id ++ ((p.space :: p.sep) ++ (p.digits ++ p.trail)), d ≠ nl ∧ d ≠ 0 := by
    rw [hraw]
    exact fun d hd => ⟨fun h => hdata.no_nl (h ▸ hd), fun h => hdata.no_nul (h ▸ hd)⟩
  obtain ⟨hidne, hhead⟩ : p.id ≠ [] ∧ p.id.head? ≠ some hash := by
    obtain ⟨a, rest, hfirst, hspace, hhash⟩ := hdata.first
    rw [hfirst] at hraw
    cases hid : p.id with
    | nil =>
        rw [hid, List.nil_append, List.cons_append] at hraw
        have hsame := p.space_isspace
        rw [(List.cons.inj hraw).1, hspace] at hsame
        cases hsame
    | cons b id =>
        rw [hid, List.cons_append] at hraw
        have hsame := (List.cons.inj hraw).1
        simpa [hsame] using hhash
  have hlen : p.digits.length = 2 * (p.digits.length / 2) := by omega
  have hhexes : ∀ d ∈ p.digits, isHexDigit d = true := by
    have hsome : (i2HexDecode (p.digits ++ []) (p.digits.length / 2)).isSome = true := by
      rw [List.append_nil, hdecode]
      rfl
    exact (i2HexDecode_isSome hlen).mp hsome
  refine ⟨⟨p.id, p.space :: p.sep, p.digits, p.trail, ⟨hidne, ?_, hhead⟩, by simp, ?_, ?_, heven,
    hhexes, ?_⟩, hraw⟩
  · exact fun d hd => ⟨p.id_word d hd, (hmem d (by simp [hd])).2⟩
  · intro d hd
    refine ⟨?_, (hmem d (by simp only [List.mem_append]; tauto)).1⟩
    rcases List.mem_cons.mp hd with rfl | hd
    · exact p.space_isspace
    · exact p.sep_isspace d hd
  · exact fun h => hne (by rw [h]; rfl)
  · exact fun d hd => ⟨p.trail_isspace d hd, (hmem d (by simp [hd])).1⟩

/-! ### The whole file -/

variable {id_query : Option (List UInt8)} {fp : List UInt8} {rc : ℤ}

/-- When a call returns no error, the data lines that it has consumed are valid. -/
def ConsumedValid (id_query : Option (List UInt8)) (fp : List UInt8) (rc : ℤ) : Prop :=
  ∀ lines r, readRecords.Run (pfLine id_query) ⟨rc, fp, []⟩ lines r →
    i2ParsePFFile (some fp) rc id_query = some r → 0 ≤ r.rc → ∀ line ∈ lines, PFValid line

/-- Every call that reads the file to its end checks what it consumes, and the query does
not matter for whether the file is accepted. -/
def ChecksFile (id_query : Option (List UInt8)) (fp : List UInt8) (rc : ℤ) : Prop :=
  (∀ fp' rc', ReadsTo (pfLine id_query) fp rc fp' rc' → ConsumedValid id_query fp' rc') ∧
    (Accepts (pfLine id_query) fp rc ↔ Accepts (pfLine none) fp rc)

theorem consumedValid_iff {consumed : List (List UInt8)}
    {e : CallEnd (List UInt8 × List UInt8)}
    (h : CallShape (pfLine id_query) (fileLines fp) consumed e) (hrc : 0 ≤ rc) :
    ConsumedValid id_query fp rc ↔ (¬e.Refuses → ∀ line ∈ consumed, PFValid line) := by
  obtain ⟨r, hrun, hreturns⟩ := @CallShape.run _ _ _ _ _ h ⟨rc, fp, []⟩ hrc rfl
  have hrefuses : 0 ≤ r.rc ∧ consumed ≠ [] → ¬e.Refuses := by
    rintro ⟨hpos, hne⟩ hrefuses
    cases e with
    | eof => exact hrefuses
    | refused fetched => exact absurd (hreturns.2.2 (.inr (.inl hne))) (by omega)
    | hit record behind => exact hrefuses
  constructor
  · intro hvalid hends
    apply hvalid consumed r hrun hrun.result
    cases e with
    | eof => exact hreturns.1.ge
    | refused fetched => exact absurd trivial hends
    | hit record behind =>
        have hlt := hreturns.1
        simp only at hlt
        omega
  · intro hvalid lines r' hrun' hresult hpos line hmem
    obtain rfl := Option.some.inj (hrun.result.symm.trans hresult)
    obtain rfl := hrun'.lines_unique hrun
    exact hvalid (hrefuses ⟨hpos, List.ne_nil_of_mem hmem⟩) line hmem

theorem readsTo_valid_iff (hrc : 0 ≤ rc) :
    (∀ fp' rc', ReadsTo (pfLine id_query) fp rc fp' rc' → ConsumedValid id_query fp' rc') ↔
      SkipsValid (pfLine id_query) PFValid (fileLines fp) := by
  induction hlen : (fileLines fp).length using Nat.strongRecOn generalizing fp rc with
  | _ n ih =>
      subst hlen
      obtain ⟨consumed, e, hshape⟩ := callShape_exists (pfLine id_query) (fileLines fp)
      obtain ⟨r, hread, hreturns⟩ := hshape.call hrc
      rw [hshape.skipsValid_iff fun line record hmem hjudge =>
          pfValid_of_hit (pfLine_hit hjudge) (fileLines_text hmem), ← consumedValid_iff hshape hrc]
      -- the calls behind the first one
      have hbehind : ∀ record behind, e = .hit record behind → 0 < r.rc ∧
          ((∀ fp' rc', ReadsTo (pfLine id_query) r.rest r.rc fp' rc' →
            ConsumedValid id_query fp' rc') ↔ SkipsValid (pfLine id_query) PFValid behind) := by
        rintro record behind rfl
        obtain ⟨hlt, -, hrest⟩ := hreturns
        refine ⟨by omega, ?_⟩
        rw [← hrest]
        exact ih _ (by rw [hrest]; exact hshape.behind_length) (by omega) rfl
      constructor
      · intro hall
        refine ⟨hall fp rc .here, fun record behind he => ?_⟩
        obtain ⟨hpos, hiff⟩ := hbehind record behind he
        exact hiff.mp fun fp' rc' hto => hall fp' rc' (.call hread hpos hto)
      · rintro ⟨hfirst, hrest⟩ fp' rc' hto
        cases hto with
        | here => exact hfirst
        | call hread' hpos hto =>
            obtain rfl := Option.some.inj (hread.symm.trans hread')
            cases e with
            | eof => exact absurd hreturns.1 (by omega)
            | refused fetched => exact absurd hreturns.1 (by omega)
            | hit record behind =>
                exact (hbehind record behind rfl).2.mpr (hrest record behind rfl) fp' rc' hto

/-- Lines that are valid whenever they are skipped are refused with a query just when they
are refused without one. -/
theorem takesAll_query {lines : List (Option (List UInt8))}
    (h : SkipsValid (pfLine id_query) PFValid lines) :
    TakesAll (pfLine id_query) lines ↔ TakesAll (pfLine none) lines := by
  induction lines with
  | nil => rfl
  | cons x lines ih =>
      cases x with
      | none => rfl
      | some line =>
          rw [SkipsValid] at h
          rw [TakesAll, TakesAll]
          cases hjudge : pfLine id_query line with
          | reject err => rw [pfLine_reject hjudge]
          | hit record =>
              rw [hjudge] at h
              rw [pfLine_hit hjudge]
              exact ih h
          | skip =>
              rw [hjudge] at h
              have ih := ih h.2
              constructor
              · intro htakes
                obtain ⟨record, hhit⟩ := (h.1 htakes.endsWell).entry
                rw [hhit]
                exact ih.mp htakes
              · intro htakes
                rcases pfLine_none_cases line with ⟨err, hreject⟩ | ⟨record, hhit⟩
                · rw [hreject] at htakes
                  exact htakes.elim
                · rw [hhit] at htakes
                  exact ih.mpr htakes

end I2util
