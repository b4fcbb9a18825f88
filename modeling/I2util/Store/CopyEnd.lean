import I2util.Conf.Rows
import I2util.Store.Lookup

/-!
Where the bytes that a reader has copied to `tofp` end, and what becomes of a
record that is written behind them.

A comment that the stream breaks off in is copied without a newline, and an
indented comment at the end of the copy makes the reader refuse the row below it.
-/

namespace I2util

def EndsLine (text : List UInt8) : Prop := ∀ c ∈ text.getLast?, c = nl

/-- A reading gets to the end of the stream, and the last row there is a comment
without a newline. -/
def Cuts {ρ : Type} (judge : List UInt8 → Verdict ρ) (ns : ℕ) (rows : List Row) (last : Row) :
    Prop :=
  (passRows judge ns rows).isSome = true ∧ last.kind = .comment

instance {ρ : Type} (judge : List UInt8 → Verdict ρ) (ns : ℕ) (rows : List Row) (last : Row) :
    Decidable (Cuts judge ns rows last) :=
  inferInstanceAs (Decidable (_ ∧ _))

/-- A reading gets to the end of the stream, and a row below would belong to a
comment or stand under an indented one. -/
def Opens {ρ : Type} (judge : List UInt8 → Verdict ρ) (ns : ℕ) (rows : List Row) (last : Row) :
    Prop :=
  ∃ ns', passRows judge ns rows = some ns' ∧
    (last.kind = .comment ∨ last.kind = .blank ∧ ns' ≠ 0)

def CutComment (F : Format) (query : Option (List UInt8)) (fp : List UInt8) : Prop :=
  Cuts (F.judge query) 0 (splitRows fp).1 (splitRows fp).2

instance (F : Format) (query : Option (List UInt8)) (fp : List UInt8) :
    Decidable (CutComment F query fp) :=
  inferInstanceAs (Decidable (Cuts _ _ _ _))

def LeavesOpen (F : Format) (query : Option (List UInt8)) (fp : List UInt8) : Prop :=
  Opens (F.judge query) 0 (splitRows fp).1 (splitRows fp).2

/-- The law of the copy: a call that has not failed leaves whole lines. -/
def CopiesLines (F : Format) (query : Option (List UInt8)) (fp : List UInt8) (rc : ℤ) : Prop :=
  ∃ r, F.read (some fp) rc query = some r ∧ (0 ≤ r.rc → EndsLine r.out)

/-- A record that is written behind the copy is found in the new file. -/
def WrittenIsFound (F : Format) (query : Option (List UInt8)) (fp : List UInt8) (rc : ℤ)
    (new : NewRecord F) : Prop :=
  ∃ r, F.read (some fp) rc query = some r ∧
    (0 ≤ r.rc → Finds F (r.out ++ (F.write new.id new.value).2) new.id (some new.value))

@[simp] theorem endsLine_nil : EndsLine [] := by simp [EndsLine]

theorem endsLine_append_nl (text rest : List UInt8) :
    EndsLine (text ++ [nl] ++ rest) ↔ EndsLine rest := by
  cases rest using List.reverseRecOn with
  | nil => simp [EndsLine]
  | append_singleton rest c => simp [EndsLine, ← List.append_assoc]

variable {ρ : Type} {judge : List UInt8 → Verdict ρ} {rows : List Row} {last : Row}
  {ns : ℕ} {rc : ℤ}

theorem not_endsLine_comment (hkind : last.kind = .comment) : ¬EndsLine (last.copy ns) := by
  obtain ⟨t, -, -, hcopy⟩ := Row.kind_comment hkind
  have hne : last.copy ns ≠ [] := by simp [hcopy]
  intro hends
  have hlast := hends _ (List.getLast?_eq_some_getLast hne)
  exact last.copy_no_nl ns (hlast ▸ List.getLast_mem hne)

/-- Only a comment that the stream breaks off in is copied without a newline, and
then the call returns 0. -/
theorem readFrom_endsLine (hrc : 0 ≤ rc) :
    ∃ r, readFrom judge ns (joinRows rows ++ last.text) rc = some r ∧
      (Cuts judge ns rows last → r.rc = 0 ∧ ¬EndsLine r.out) ∧
      (¬Cuts judge ns rows last → EndsLine r.out) := by
  induction rows generalizing ns rc with
  | nil =>
      simp only [Cuts, joinRows_nil, List.nil_append, passRows, Option.isSome_some, true_and]
      cases hkind : last.kind with
      | blank =>
          refine ⟨_, readFrom_lastIdle (by simp [hkind]), by simp, fun _ => ?_⟩
          simp [Row.copy, hkind]
      | comment =>
          exact ⟨_, readFrom_lastIdle (by simp [hkind]),
            fun _ => ⟨rfl, not_endsLine_comment hkind⟩, fun h => absurd rfl h⟩
      | data =>
          cases hpassed : last.passed judge ns with
          | true =>
              refine ⟨_, readFrom_lastPassed hkind hpassed hrc, by simp, fun _ => ?_⟩
              simpa using endsLine_append_nl (last.copy ns) []
          | false =>
              obtain ⟨r, hr, hout, -⟩ := readFrom_stops hkind hpassed .eof hrc
              refine ⟨r, by simpa using hr, by simp, fun _ => ?_⟩
              rw [hout]
              exact endsLine_nil
  | cons row rows ih =>
      rw [joinRows_cons, List.append_assoc, List.cons_append, Cuts, passRows]
      cases hpassed : row.passed judge ns with
      | true =>
          obtain ⟨r, hr, hcut, hends⟩ := @ih (row.carry ns) (rc + 1) (by omega)
          rw [readFrom_passed hpassed hrc, hr]
          refine ⟨_, rfl, ?_, ?_⟩
          · intro h
            obtain ⟨hrc, hout⟩ := hcut h
            exact ⟨hrc, fun h => hout ((endsLine_append_nl _ _).mp h)⟩
          · exact fun h => (endsLine_append_nl _ _).mpr (hends h)
      | false =>
          have hkind := Row.kind_of_not_passed hpassed
          obtain ⟨r, hr, hout, -⟩ := readFrom_stops hkind hpassed
            (.newline (joinRows rows ++ last.text)) hrc
          refine ⟨r, by simpa using hr, by simp, fun _ => ?_⟩
          rw [hout]
          exact endsLine_nil

/-! ### Reading the copy again -/

variable {J : List UInt8 → Verdict ρ} {m : ℕ} {row : Row}

/-- A copied row is passed over again, by a reader that skips the same lines. The
counters need not be equal. -/
theorem Row.copied_passed (hempty : judge [] ≠ .skip)
    (hskip : ∀ line, judge line = .skip → J line = .skip) (hm : m = 0 ↔ ns = 0)
    (h : row.passed judge ns = true) :
    (row.copied ns).passed J m = true ∧ ((row.copied ns).carry m = 0 ↔ row.carry ns = 0) := by
  have hkinds : (row.copied ns).kind = row.kind := by
    apply Row.copied_kind
    intro hkind
    obtain ⟨hns, hjudge⟩ := (Row.passed_data hkind).mp h
    exact ⟨by omega, fun hnil => hempty (hnil ▸ hjudge)⟩
  cases hkind : row.kind with
  | blank =>
      rw [hkind] at hkinds
      exact ⟨Row.passed_of_ne_data (by simp [hkinds]), by simp [Row.carry, hkind, hkinds]⟩
  | comment =>
      obtain ⟨hcopied, hindent⟩ := Row.copied_comment hkind ns
      refine ⟨Row.passed_of_ne_data (by simp [hcopied]), ?_⟩
      simp only [Row.carry, hkind, hcopied, hindent]
      omega
  | data =>
      obtain ⟨hns, hjudge⟩ := (Row.passed_data hkind).mp h
      obtain ⟨hcopied, hindent⟩ := Row.copied_data hkind (by omega)
        (fun hnil => hempty (hnil ▸ hjudge)) ns
      have hagain : cstr (row.copied ns).text = cstr row.text := by
        simp [Row.copied, Row.copy, hkind, cstr_cstr]
      refine ⟨(Row.passed_data hcopied).mpr ⟨by omega, ?_⟩, by simp [Row.carry, hkind, hcopied]⟩
      rw [hagain]
      exact hskip _ hjudge

/-- A reader entered with the counter at `m` returns the record `e`. -/
def FoundIn (J : List UInt8 → Verdict ρ) (e : ρ) (m : ℕ) (rc : ℤ) (text : List UInt8) : Prop :=
  ∃ r, readFrom J m text rc = some r ∧ 0 < r.rc ∧ r.found = some e

variable {e : ρ} {raw : List UInt8}

theorem foundIn_passed (h : row.passed J m = true) (hrc : 0 ≤ rc) {s : List UInt8} :
    FoundIn J e m rc (row.text ++ nl :: s) ↔ FoundIn J e (row.carry m) (rc + 1) s := by
  simp [FoundIn, readFrom_passed h hrc, Option.map_eq_some_iff]

/-- A record is found where no white space is left over. -/
theorem foundIn_raw (hraw : DataText raw) (he : J raw = .hit e) (hrc : 0 ≤ rc) :
    FoundIn J e m rc (raw ++ [nl]) ↔ m = 0 := by
  obtain ⟨c, t, hct, hspace, hhash⟩ := hraw.first
  obtain ⟨hkind, hindent⟩ := @Row.data_text ⟨raw, hraw.no_nl⟩ c t hct hspace hhash
  constructor
  · rintro ⟨r, hr, hpos, -⟩
    by_contra hm
    have hread := @readFrom_refused _ J m rc ⟨raw, hraw.no_nl⟩ [nl] hkind (by omega) hrc
    obtain rfl := Option.some.inj (hread.symm.trans hr)
    simp only at hpos
    omega
  · rintro rfl
    have hread := @readFrom_data _ J 0 rc ⟨raw, hraw.no_nl⟩ [nl] [] hkind (by omega)
      (.newline []) hrc
    rw [List.append_nil, hraw.cstr_eq, he] at hread
    exact ⟨_, hread, show 0 < rc + 1 by omega, rfl⟩

/-- A record behind an open comment belongs to it. -/
theorem not_foundIn_comment (hkind : last.kind = .comment) (hraw : nl ∉ raw) :
    ¬FoundIn J e m rc (last.copy ns ++ (raw ++ [nl])) := by
  obtain ⟨t, -, -, hcopy⟩ := Row.kind_comment hkind
  have htext : last.copy ns ++ raw = List.replicate (ns + last.indent) blank ++ hash ::
      (t ++ raw) := by
    rw [hcopy, List.append_assoc, List.cons_append]
  have hrow : nl ∉ last.copy ns ++ raw := by simp [last.copy_no_nl ns, hraw]
  obtain ⟨hcomment, -⟩ := @Row.comment_text ⟨_, hrow⟩ _ _ htext
  have hread := @readFrom_idle _ J m rc ⟨_, hrow⟩ [] (by simp [hcomment])
  rw [readFrom_nil] at hread
  rintro ⟨r, hr, hpos, -⟩
  rw [← List.append_assoc] at hr
  obtain rfl := Option.some.inj (hread.symm.trans hr)
  exact absurd hpos (Int.lt_irrefl 0)

section Reread

variable (hempty : judge [] ≠ .skip) (hskip : ∀ line, judge line = .skip → J line = .skip)
  (hraw : DataText raw) (he : J raw = .hit e)

include hraw he in
/-- A call that stops at a data row has copied nothing of it. -/
theorem foundIn_stops {eol s : List UInt8} {rc' : ℤ} (hkind : row.kind = .data)
    (hpassed : row.passed judge ns = false) (heol : LineEnd eol s) (hrc : 0 ≤ rc)
    (hstart : rc = 0 → ns = 0) (hm : m = 0 ↔ ns = 0) (hrc' : 0 ≤ rc') :
    ∃ r, readFrom judge ns (row.text ++ (eol ++ s)) rc = some r ∧
      (0 ≤ r.rc → FoundIn J e m rc' (r.out ++ (raw ++ [nl]))) := by
  obtain ⟨r, hr, hout, hpos, hzero⟩ := readFrom_stops hkind hpassed heol hrc
  refine ⟨r, hr, fun hle => ?_⟩
  have hns : ns = 0 := by
    rcases hle.lt_or_eq with hlt | heq
    · exact hpos hlt
    · exact hstart (hzero heq.symm)
  rw [hout]
  exact (foundIn_raw hraw he hrc').mpr (hm.mpr hns)

include hempty hskip hraw he in
/-- A call that is entered with the counter at `ns`, and a second one that reads
the copy with a record behind it. Before the first row the counter is 0. -/
theorem readFrom_opens (hrc : 0 ≤ rc) (hstart : rc = 0 → ns = 0) (hm : m = 0 ↔ ns = 0)
    {rc' : ℤ} (hrc' : 0 ≤ rc') :
    ∃ r, readFrom judge ns (joinRows rows ++ last.text) rc = some r ∧
      (Opens judge ns rows last → r.rc = 0 ∧ ¬FoundIn J e m rc' (r.out ++ (raw ++ [nl]))) ∧
      (¬Opens judge ns rows last → 0 ≤ r.rc → FoundIn J e m rc' (r.out ++ (raw ++ [nl]))) := by
  induction rows generalizing ns rc m rc' with
  | nil =>
      simp only [joinRows_nil, List.nil_append, Opens, passRows, Option.some.injEq,
        exists_eq_left']
      cases hkind : last.kind with
      | blank =>
          refine ⟨_, readFrom_lastIdle (by simp [hkind]), ?_⟩
          have hfound := @foundIn_raw _ rc' J m e raw hraw he hrc'
          simp only [Row.copy, hkind, List.nil_append, hfound, hm]
          simp
      | comment =>
          refine ⟨_, readFrom_lastIdle (by simp [hkind]), fun _ => ⟨rfl, ?_⟩, by simp⟩
          exact not_foundIn_comment hkind hraw.no_nl
      | data =>
          cases hpassed : last.passed judge ns with
          | true =>
              obtain ⟨hcopied, hcarry⟩ := Row.copied_passed hempty hskip hm hpassed
              refine ⟨_, readFrom_lastPassed hkind hpassed hrc, by simp, fun _ _ => ?_⟩
              have hfound := @foundIn_passed _ rc' J m (last.copied ns) e hcopied hrc'
                (raw ++ [nl])
              rw [foundIn_raw hraw he (by omega), hcarry] at hfound
              simpa [Row.copied, Row.carry, hkind] using hfound
          | false =>
              obtain ⟨r, hr, hfound⟩ :=
                foundIn_stops hraw he hkind hpassed .eof hrc hstart hm hrc'
              exact ⟨r, by simpa using hr, by simp, fun _ => hfound⟩
  | cons row rows ih =>
      rw [joinRows_cons, List.append_assoc, List.cons_append, Opens, passRows]
      cases hpassed : row.passed judge ns with
      | true =>
          obtain ⟨hcopied, hcarry⟩ := Row.copied_passed hempty hskip hm hpassed
          obtain ⟨r, hr, hopen, hclosed⟩ := @ih (row.carry ns) (rc + 1)
            ((row.copied ns).carry m) (by omega) (by omega) hcarry (rc' + 1) (by omega)
          -- the second call passes over the copy of the row
          have hagain : FoundIn J e m rc' (row.copy ns ++ [nl] ++ r.out ++ (raw ++ [nl])) ↔
              FoundIn J e ((row.copied ns).carry m) (rc' + 1) (r.out ++ (raw ++ [nl])) := by
            have h := @foundIn_passed _ rc' J m (row.copied ns) e hcopied hrc'
              (r.out ++ (raw ++ [nl]))
            simpa [Row.copied] using h
          rw [readFrom_passed hpassed hrc, hr]
          refine ⟨_, rfl, fun h => ?_, fun h hle => ?_⟩
          · exact ⟨(hopen h).1, fun hfound => (hopen h).2 (hagain.mp hfound)⟩
          · exact hagain.mpr (hclosed h hle)
      | false =>
          have hkind := Row.kind_of_not_passed hpassed
          obtain ⟨r, hr, hfound⟩ := foundIn_stops hraw he hkind hpassed
            (.newline (joinRows rows ++ last.text)) hrc hstart hm hrc'
          exact ⟨r, by simpa using hr, by simp, fun _ => hfound⟩

end Reread

/-! ### The two readers -/

variable {F : Format} {query : Option (List UInt8)} {fp : List UInt8}

theorem Format.read_rows (F : Format) (query : Option (List UInt8)) (fp : List UInt8) (rc : ℤ) :
    F.read (some fp) rc query =
      readFrom (F.judge query) 0 (joinRows (splitRows fp).1 ++ (splitRows fp).2.text) rc := by
  rw [joinRows_splitRows, ← readRecords_eq_readFrom]
  rfl

theorem copiesLines_iff (hrc : 0 ≤ rc) : CopiesLines F query fp rc ↔ ¬CutComment F query fp := by
  obtain ⟨r, hr, hcut, hends⟩ := @readFrom_endsLine _ (F.judge query) (splitRows fp).1
    (splitRows fp).2 0 rc hrc
  rw [← F.read_rows query fp rc] at hr
  constructor
  · rintro ⟨r', hr', hlaw⟩ hcon
    obtain rfl := Option.some.inj (hr.symm.trans hr')
    obtain ⟨hzero, hout⟩ := hcut hcon
    exact hout (hlaw hzero.ge)
  · exact fun h => ⟨r, hr, fun _ => hends h⟩

theorem writtenIsFound_iff (hF : F.Regular) (hrc : 0 ≤ rc) (new : NewRecord F)
    (hquery : query = none ∨ query = some new.id) :
    WrittenIsFound F query fp rc new ↔ ¬LeavesOpen F query fp := by
  have hskip : ∀ line, F.judge query line = .skip → F.judge (some new.id) line = .skip := by
    rcases hquery with rfl | rfl
    · exact fun line h => absurd h (hF.none_ne_skip line)
    · exact fun _ h => h
  have hfinds : ∀ out, Finds F (out ++ (F.write new.id new.value).2) new.id (some new.value) ↔
      FoundIn (F.judge (some new.id)) (new.id, new.value) 0 0 (out ++ (new.raw ++ [nl])) := by
    intro out
    have hread : F.read (some (out ++ (new.raw ++ [nl]))) 0 (some new.id) = _ :=
      readRecords_eq_readFrom _ 0
    rw [Finds, FoundIn, new.write_eq, hread]
  obtain ⟨r, hr, hopen, hclosed⟩ := @readFrom_opens _ (F.judge query) (splitRows fp).1
    (splitRows fp).2 0 rc (F.judge (some new.id)) 0 (new.id, new.value) new.raw
    (hF.nil_ne_skip query) hskip new.data (hF.judge_new new) hrc (fun _ => rfl) Iff.rfl 0 le_rfl
  rw [← F.read_rows query fp rc] at hr
  constructor
  · rintro ⟨r', hr', hlaw⟩ hcon
    obtain rfl := Option.some.inj (hr.symm.trans hr')
    obtain ⟨hzero, hnot⟩ := hopen hcon
    exact hnot ((hfinds r.out).mp (hlaw hzero.ge))
  · exact fun h => ⟨r, hr, fun hle => (hfinds r.out).mpr (hclosed h hle)⟩

/-- On every stream the two readers copy whole lines exactly when they do not run
into a comment that the stream breaks off in, and the record written next, which is
the one that was asked for, is found exactly when the copy does not end in an
indented comment either. -/
theorem copy_ends (fp : List UInt8) (query : Option (List UInt8)) {rc : ℤ} (hrc : 0 ≤ rc) :
    (CopiesLines keyFormat query fp rc ↔ ¬CutComment keyFormat query fp) ∧
      (CopiesLines pfFormat query fp rc ↔ ¬CutComment pfFormat query fp) ∧
      (∀ new : NewRecord keyFormat, query = none ∨ query = some new.id →
        (WrittenIsFound keyFormat query fp rc new ↔ ¬LeavesOpen keyFormat query fp)) ∧
      ∀ new : NewRecord pfFormat, query = none ∨ query = some new.id →
        (WrittenIsFound pfFormat query fp rc new ↔ ¬LeavesOpen pfFormat query fp) :=
  ⟨copiesLines_iff hrc, copiesLines_iff hrc, writtenIsFound_iff keyFormat_regular hrc,
    writtenIsFound_iff pfFormat_regular hrc⟩

theorem copy_ends_sample :
    CopiesLines keyFormat (some (ascii "jdoe")) (ascii "# keys" ++ [nl]) 0 :=
  (copy_ends (ascii "# keys" ++ [nl]) (some (ascii "jdoe")) le_rfl).1.mpr (by decide)

/-- A comment at the very end loses its end, and the record written next is part of
it. -/
theorem not_copiesLines_comment :
    ¬CopiesLines keyFormat (some (ascii "jdoe")) (ascii "# keys") 0 := by
  rintro ⟨r, hr, hends⟩
  have hread : keyFormat.read (some (ascii "# keys")) 0 (some (ascii "jdoe")) =
      some ⟨0, none, [], ascii "# keys", none⟩ := by decide
  obtain rfl := Option.some.inj (hread.symm.trans hr)
  have hlast : (115 : UInt8) = nl := hends le_rfl 115 rfl
  exact absurd hlast (by decide)

end I2util
