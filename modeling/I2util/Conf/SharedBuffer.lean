import I2util.Conf.ConfBuffer
import I2util.Conf.KeyBuffer
import I2util.Term.ReadPass

/-!
One line buffer for all calls.

Every function that takes `lbuf` and `lbuf_max` leaves a block of the size it keeps, unless
`realloc` refuses one. Then `*lbuf` is a null pointer, and `*lbuf_max` is the size that was
asked for.
-/

namespace I2util

namespace Buffered

variable {a : Growing.Realloc UInt8} {lbuf : Lbuf}

def refused (err : Option ErrMsg) : Bool :=
  match err with
  | some (.realloc _) => true
  | _ => false

@[simp] theorem refused_msg (err : Option I2util.ErrMsg) : refused (err.map .msg) = false := by
  cases err <;> rfl

inductive BufferCall
  | getConfLine (fp : List UInt8) (rc : ℕ)
  | readConfVar (fp : List UInt8) (rc max : ℕ)
  | parseKeyFile (fp : Option (List UInt8)) (rc : ℕ) (id_query : Option (List UInt8))
  | parsePFFile (filep : Option (List UInt8)) (rc : ℕ) (id_query : Option (List UInt8))
  | writePFLine (id : Option (List UInt8)) (bytes : List UInt8)
  | readPassPhraseAlloc (flags : UInt32) (tries : List Attempt) (w : Process)

/-- The buffer after a call, and whether `realloc` refused a block. -/
structure CallEnd where
  lbuf : Lbuf
  refused : Bool

/-- `none` if the call does not return. -/
def BufferCall.run (a : Growing.Realloc UInt8) (lbuf : Lbuf) : BufferCall → Option CallEnd
  | .getConfLine fp rc =>
      let r := i2GetConfLine a lbuf fp rc
      some ⟨r.lbuf, Buffered.refused r.err⟩
  | .readConfVar fp rc max =>
      let r := i2ReadConfVar a lbuf fp rc max
      some ⟨r.lbuf, Buffered.refused r.err⟩
  | .parseKeyFile fp rc id_query =>
      (i2ParseKeyFile a lbuf fp rc id_query).map fun r => ⟨r.lbuf, Buffered.refused r.err⟩
  | .parsePFFile filep rc id_query =>
      (i2ParsePFFile a filep rc id_query lbuf).map fun r => ⟨r.lbuf, Buffered.refused r.err⟩
  | .writePFLine id bytes =>
      let r := i2WritePFLine a lbuf id bytes
      some ⟨r.lbuf, Buffered.refused r.err⟩
  | .readPassPhraseAlloc flags tries w =>
      match i2ReadPassPhraseAlloc flags a lbuf tries w with
      | .returned r => some ⟨r.lbuf, r.errno = some .ENOMEM⟩
      | .waiting | .killed => none

/-- What each call of a program leaves, up to one that does not return. Every call meets
`realloc` in a state of its own. -/
def ends : Lbuf → List (Growing.Realloc UInt8 × BufferCall) → List CallEnd
  | _, [] => []
  | lbuf, (a, call) :: calls =>
      match call.run a lbuf with
      | none => []
      | some e => e :: ends e.lbuf calls

/-! ### Lines -/

/-- A line reader leaves its buffer whole, or returns no row. -/
structure LineRead.Settled (r : LineRead) : Prop where
  lbuf : r.lbuf.Settled (refused r.err)
  rc : refused r.err = true → r.rc ≤ 0

theorem LineRead.Settled.of_whole {r : LineRead} (h : r.lbuf.Whole) (herr : refused r.err = false) :
    r.Settled := by
  refine ⟨?_, fun htrue => ?_⟩
  · rw [herr]
    exact h.settled
  · rw [herr] at htrue
    cases htrue

theorem LineRead.Settled.print {r : LineRead} (h : r.Settled) (text : List UInt8) :
    (r.print text).Settled := ⟨h.lbuf, h.rc⟩

theorem LineRead.Settled.whole {r : LineRead} (h : r.Settled) (hrc : 0 < r.rc) :
    r.lbuf.Whole ∧ refused r.err = false := by
  have hno : refused r.err = false := by
    by_contra htrue
    have hle := h.rc (by simpa using htrue)
    omega
  exact ⟨h.lbuf.whole hno, hno⟩

theorem grow_char (h : lbuf.Whole) (i : ℕ) (c : UInt8) :
    (∃ lbuf', lbuf.grow a I2LINEBUFINC (i + 2) = (true, lbuf') ∧ (lbuf'.put i c).Whole ∧
        i + 1 < (lbuf'.put i c).max) ∨
      ∃ lbuf', lbuf.grow a I2LINEBUFINC (i + 2) = (false, lbuf') ∧ lbuf'.Lost := by
  rcases h.grow_cases (a := a) (Nat.succ_pos 119) (i + 2) with ⟨lbuf', hgrow, hwhole, hroom⟩ | hlost
  · refine .inl ⟨lbuf', hgrow, hwhole.put (by omega) c, ?_⟩
    rw [Growing.Block.put_max]
    omega
  · exact .inr hlost

theorem parsefileline.scan_settled (h : lbuf.Whole) {nc : ℕ} (hroom : nc ≠ 0 → nc < lbuf.max)
    {rc : ℤ} (hrc : 0 ≤ rc) (ns : ℕ) (comment : Bool) (s : List UInt8) :
    (parsefileline.scan a rc lbuf nc ns comment s).Settled := by
  induction s generalizing lbuf nc rc ns comment with
  | nil =>
      rw [parsefileline.scan]
      split_ifs with hnc
      · exact .of_whole h rfl
      · exact .of_whole (h.put (hroom hnc) 0) rfl
  | cons c s ih =>
      have hnext : 0 ≤ rc + 1 := by omega
      rw [parsefileline.scan]
      split_ifs with hcomment hnl hnl hnc hhash hspace hns
      · exact (ih h hroom hnext ns false).print [c]
      · exact (ih h hroom hrc ns true).print [c]
      · exact .of_whole (h.put (hroom hnc) 0) rfl
      · exact (ih h hroom hnext 0 false).print [nl]
      · exact (ih h hroom hrc ns true).print _
      · exact ih h hroom hrc (ns + 1) false
      · exact .of_whole h rfl
      · rcases grow_char h nc c with ⟨lbuf', hgrow, hput, hmore⟩ | ⟨lbuf', hgrow, hlost⟩
        · rw [hgrow]
          exact ih hput (fun _ => hmore) hrc ns false
        · rw [hgrow]
          exact ⟨hlost.settled, fun _ => Int.neg_nonpos_of_nonneg hrc⟩

theorem i2GetConfLine.scan_settled (h : lbuf.Whole) {i : ℕ} (hroom : i ≠ 0 → i < lbuf.max)
    {rc : ℤ} (hrc : 0 ≤ rc) (mode : ConfMode) (s : List UInt8) :
    (i2GetConfLine.scan a rc lbuf i mode s).Settled := by
  induction s generalizing lbuf i rc mode with
  | nil =>
      cases mode with
      | escape => exact .of_whole h rfl
      | text | comment =>
          simp only [i2GetConfLine.scan]
          split_ifs with hi
          · exact .of_whole h rfl
          · exact .of_whole (h.put (hroom hi) 0) rfl
  | cons c s ih =>
      have hnext : 0 ≤ rc + 1 := by omega
      cases mode with
      | comment =>
          simp only [i2GetConfLine.scan]
          split_ifs
          · exact ih h hroom hnext .text
          · exact ih h hroom hrc .comment
      | escape =>
          simp only [i2GetConfLine.scan]
          split_ifs
          · exact ih h hroom hnext .text
          · exact .of_whole h rfl
      | text =>
          simp only [i2GetConfLine.scan]
          split_ifs with hnl hi hhash hspace hback
          · exact .of_whole (h.put (hroom hi) 0) rfl
          · exact ih h hroom hnext .text
          · exact ih h hroom hrc .comment
          · exact ih h hroom hrc .text
          · exact ih h hroom hrc .escape
          · rcases grow_char h i c with ⟨lbuf', hgrow, hput, hmore⟩ | ⟨lbuf', hgrow, hlost⟩
            · rw [hgrow]
              exact ih hput (fun _ => hmore) hrc .text
            · rw [hgrow]
              exact ⟨hlost.settled, fun _ => Int.neg_nonpos_of_nonneg hrc⟩

theorem parsefileline_settled (h : lbuf.Whole) (fp : List UInt8) {rc : ℤ} (hrc : 0 ≤ rc) :
    (parsefileline a lbuf fp rc).Settled :=
  parsefileline.scan_settled h (absurd rfl) hrc 0 false fp

theorem i2GetConfLine_settled (h : lbuf.Whole) (fp : List UInt8) {rc : ℤ} (hrc : 0 ≤ rc) :
    (i2GetConfLine a lbuf fp rc).Settled :=
  i2GetConfLine.scan_settled h (absurd rfl) hrc .text fp

/-! ### What is done with a line -/

theorem lt_length_of_strAt {i : ℕ} (h : strAt lbuf i ≠ []) : i < lbuf.cells.length := by
  by_contra hle
  rw [strAt, List.drop_of_length_le (Nat.not_lt.mp hle)] at h
  exact h rfl

theorem strAt_length_le (lbuf : Lbuf) : (strAt lbuf 0).length ≤ lbuf.cells.length := by
  rw [strAt, List.drop_zero]
  exact (List.takeWhile_sublist _).length_le

theorem strtok_whole (h : lbuf.Whole) (s : ℕ) : (strtok lbuf s).2.2.Whole := by
  simp only [strtok]
  split_ifs with htok hstop
  · exact h
  · exact h
  · exact h.put (h.max_eq ▸ lt_length_of_strAt hstop) 0

theorem trailingRc_whole (h : lbuf.Whole) (rc : ℤ) (s : ℕ) : (trailingRc rc lbuf s).2.Whole := by
  have hwhole := strtok_whole h s
  rw [trailingRc]
  generalize strtok lbuf s = o at hwhole
  rcases o with ⟨_ | tok, s', lbuf'⟩ <;> exact hwhole

theorem i2ReadConfVar.value_whole (h : lbuf.Whole) (r : LineRead) (max : ℕ) (key : List UInt8)
    (s : ℕ) :
    (i2ReadConfVar.value r max key lbuf s).lbuf.Whole ∧
      (i2ReadConfVar.value r max key lbuf s).err = r.err := by
  have hwhole := strtok_whole h s
  rw [i2ReadConfVar.value]
  generalize strtok lbuf s = o at hwhole
  rcases o with ⟨_ | tok, s', lbuf'⟩
  · exact ⟨trailingRc_whole hwhole r.rc s', rfl⟩
  · simp only
    split_ifs
    · exact ⟨hwhole, rfl⟩
    · exact ⟨hwhole, rfl⟩
    · exact ⟨trailingRc_whole hwhole r.rc s', rfl⟩

theorem i2ReadConfVar_settled (h : lbuf.Whole) (fp : List UInt8) {rc : ℤ} (hrc : 0 ≤ rc)
    (max : ℕ) :
    (i2ReadConfVar a lbuf fp rc max).lbuf.Settled
      (refused (i2ReadConfVar a lbuf fp rc max).err) := by
  have hr := i2GetConfLine_settled (a := a) h fp hrc
  rw [i2ReadConfVar]
  generalize i2GetConfLine a lbuf fp rc = r at hr
  by_cases hpos : 0 < r.rc
  · obtain ⟨hwhole, hno⟩ := hr.whole hpos
    have hline := strtok_whole hwhole 0
    simp only [if_pos hpos]
    generalize strtok r.lbuf 0 = o at hline
    rcases o with ⟨_ | tok, s, lbuf'⟩
    · exact hno ▸ hline.settled
    · simp only
      split_ifs
      · exact hno ▸ hline.settled
      · obtain ⟨hvalue, herr⟩ := i2ReadConfVar.value_whole hline r max (strAt lbuf' tok) s
        rw [herr, hno]
        exact hvalue.settled
  · simp only [if_neg hpos]
    exact hr.lbuf

theorem eatTrailing_whole (h : lbuf.Whole) (n ts : ℕ) : (eatTrailing n lbuf ts).2.Whole := by
  induction n generalizing lbuf ts with
  | zero => exact h
  | succ n ih =>
      rw [eatTrailing]
      split_ifs with hspace
      · have hts : ts < lbuf.cells.length := by
          by_contra hle
          rw [List.getD_eq_getElem?_getD, List.getElem?_eq_none (Nat.not_lt.mp hle)] at hspace
          cases hspace
        exact ih (h.put (h.max_eq ▸ hts) 0) (ts + 1)
      · exact h

theorem i2HexDecode.loop_whole (h : lbuf.Whole) {n bytes : ℕ} (hroom : bytes + n ≤ lbuf.max)
    (buff : ℕ) : (i2HexDecode.loop n lbuf buff bytes).2.Whole := by
  induction n generalizing lbuf buff bytes with
  | zero => exact h
  | succ n ih =>
      rw [i2HexDecode.loop]
      cases decodeByte (strAt lbuf buff) with
      | none => exact h
      | some p =>
          refine ih (h.put (by omega) _) ?_ _
          rw [Growing.Block.put_max]
          omega

theorem i2HexDecode_whole (h : lbuf.Whole) {buff bytes nbytes : ℕ}
    (hroom : bytes + nbytes ≤ lbuf.max) {ok : Bool} {lbuf' : Lbuf}
    (hdec : i2HexDecode lbuf buff bytes nbytes = some (ok, lbuf')) : lbuf'.Whole := by
  have hloop := i2HexDecode.loop_whole h hroom buff
  simp only [i2HexDecode] at hdec
  split_ifs at hdec
  rw [Option.some.inj hdec] at hloop
  exact hloop

theorem i2HexEncode_whole (h : lbuf.Whole) {buff : ℕ} {bytes : List UInt8}
    (hroom : buff + 2 * bytes.length < lbuf.max) : (i2HexEncode lbuf buff bytes).Whole := by
  induction bytes generalizing lbuf buff with
  | nil => exact h.put (by simpa using hroom) 0
  | cons b bytes ih =>
      rw [List.length_cons] at hroom
      rw [i2HexEncode]
      have hhigh := h.put (i := buff) (by omega) (hexDigit (b >>> 4))
      have hlow := hhigh.put (i := buff + 1) (by rw [Growing.Block.put_max]; omega)
        (hexDigit (b &&& 0x0f))
      refine ih hlow ?_
      rw [Growing.Block.put_max, Growing.Block.put_max]
      omega

/-- The identity ends in the block, if there is a separator behind it. -/
theorem id_len_lt (hsep : ¬startsSpace ((strAt lbuf 0).drop (strcspn (strAt lbuf 0))) = false) :
    strcspn (strAt lbuf 0) < lbuf.cells.length := by
  have hle := strAt_length_le lbuf
  by_contra hge
  rw [List.drop_of_length_le (by omega)] at hsep
  exact hsep rfl

def LineVerdict.err : LineVerdict → Option ErrMsg
  | .reject err => err
  | _ => none

/-- The block behind a line of the pass-phrase file. -/
theorem pfLine_settled (h : lbuf.Whole) {id_query : Option (List UInt8)} {v : LineVerdict}
    {lbuf' : Lbuf} (hline : pfLine a id_query lbuf = some (v, lbuf')) :
    lbuf'.Settled (refused v.err) := by
  rw [pfLine] at hline
  by_cases hsep : startsSpace ((strAt lbuf 0).drop (strcspn (strAt lbuf 0))) = false
  · simp only [if_pos hsep, Option.some.injEq, Prod.mk.injEq] at hline
    obtain ⟨rfl, rfl⟩ := hline
    exact h.settled
  · by_cases hskip : pfSkips id_query (strAt lbuf 0) = true
    · simp only [if_neg hsep, if_pos hskip, Option.some.injEq, Prod.mk.injEq] at hline
      obtain ⟨rfl, rfl⟩ := hline
      exact h.settled
    · have hput := h.put (h.max_eq ▸ id_len_lt hsep) 0
      simp only [if_neg hsep, if_neg hskip] at hline
      generalize lbuf.put (strcspn (strAt lbuf 0)) 0 = lbuf₁ at hput hline
      generalize strcspn (strAt lbuf 0) + 1 +
        ((strAt lbuf₁ (strcspn (strAt lbuf 0) + 1)).takeWhile isspace).length = hex at hline
      generalize strcspn (strAt lbuf₁ hex) = hex_len at hline
      have heat := eatTrailing_whole hput lbuf₁.cells.length (hex + hex_len)
      generalize eatTrailing lbuf₁.cells.length lbuf₁ (hex + hex_len) = eaten at heat hline
      by_cases hshape : hex_len = 0 ∨ hex_len % 2 ≠ 0 ∨ eaten.2.cells.getD eaten.1 0 ≠ 0
      · simp only [if_pos hshape, Option.some.injEq, Prod.mk.injEq] at hline
        obtain ⟨rfl, rfl⟩ := hline
        exact heat.settled
      · simp only [if_neg hshape] at hline
        rcases heat.grow_cases (a := a) (Nat.succ_pos 119) (eaten.1 + 1 + hex_len / 2) with
          ⟨lbuf₂, hgrow, hwhole, hroom⟩ | ⟨lbuf₂, hgrow, hlost⟩
        · simp only [hgrow] at hline
          cases hdec : i2HexDecode lbuf₂ hex (eaten.1 + 1) (hex_len / 2) with
          | none => simp [hdec] at hline
          | some p =>
              obtain ⟨_ | _, lbuf₃⟩ := p
              all_goals
                have hkept := i2HexDecode_whole hwhole hroom hdec
                simp only [hdec, Option.some.injEq, Prod.mk.injEq] at hline
                obtain ⟨rfl, rfl⟩ := hline
                exact hkept.settled
        · simp only [hgrow, Option.some.injEq, Prod.mk.injEq] at hline
          obtain ⟨rfl, rfl⟩ := hline
          exact hlost.settled

/-! ### Files -/

theorem parsefileline.scan_cons_rest {s : List UInt8}
    (hs : ∀ rc lbuf nc ns comment,
      (parsefileline.scan a rc lbuf nc ns comment s).rest.length ≤ s.length)
    (rc : ℤ) (lbuf : Lbuf) (nc ns : ℕ) (comment : Bool) (c : UInt8) :
    (parsefileline.scan a rc lbuf nc ns comment (c :: s)).rest.length ≤ s.length := by
  rw [parsefileline.scan]
  split_ifs
  · exact hs _ _ _ _ _
  · exact hs _ _ _ _ _
  · exact Nat.le_refl _
  · exact hs _ _ _ _ _
  · exact hs _ _ _ _ _
  · exact hs _ _ _ _ _
  · exact Nat.le_refl _
  · split
    · exact Nat.le_refl _
    · exact hs _ _ _ _ _

theorem parsefileline.scan_rest (s : List UInt8) (rc : ℤ) (lbuf : Lbuf) (nc ns : ℕ)
    (comment : Bool) : (parsefileline.scan a rc lbuf nc ns comment s).rest.length ≤ s.length := by
  induction s generalizing rc lbuf nc ns comment with
  | nil =>
      rw [parsefileline.scan]
      split <;> exact Nat.le_refl 0
  | cons c s ih => exact Nat.le_succ_of_le (scan_cons_rest ih rc lbuf nc ns comment c)

theorem parsefileline_rest_lt {fp : List UInt8} {rc : ℤ}
    (hrc : 0 < (parsefileline a lbuf fp rc).rc) :
    (parsefileline a lbuf fp rc).rest.length < fp.length := by
  cases fp with
  | nil => exact absurd hrc (Int.lt_irrefl 0)
  | cons c s =>
      exact Nat.lt_succ_of_le (parsefileline.scan_cons_rest (parsefileline.scan_rest s) rc lbuf 0 0
        false c)

/-- A loop that goes on behind the line it has fetched. -/
theorem decreases_of_fetch {ρ : Type} {body : ReadState → ReadState ⊕ ρ}
    (h : ∀ st st', body st = .inl st' → 0 < (parsefileline a st.lbuf st.fp st.rc).rc ∧
      st'.fp = (parsefileline a st.lbuf st.fp st.rc).rest) :
    Loop.Decreases body fun st => st.fp.length := by
  intro st st' hgo
  obtain ⟨hrc, hrest⟩ := h st st' hgo
  show st'.fp.length < st.fp.length
  rw [hrest]
  exact parsefileline_rest_lt hrc

theorem i2ParseKeyFile.body_decreases (id_query : Option (List UInt8)) :
    Loop.Decreases (i2ParseKeyFile.body a id_query) fun st => st.fp.length := by
  refine decreases_of_fetch (a := a) fun st st' h => ?_
  simp only [i2ParseKeyFile.body] at h
  split_ifs at h with hrc
  cases hline : keyLine id_query (strAt (parsefileline a st.lbuf st.fp st.rc).lbuf 0) <;>
    rw [hline] at h <;> cases h
  exact ⟨hrc, rfl⟩

theorem i2ParsePFFile.body_decreases (id_query : Option (List UInt8)) :
    Loop.Decreases (i2ParsePFFile.body a id_query) fun st => st.fp.length := by
  refine decreases_of_fetch (a := a) fun st st' h => ?_
  simp only [i2ParsePFFile.body] at h
  split_ifs at h with hrc
  split at h <;> cases h
  exact ⟨hrc, rfl⟩

structure ReadState.Ready (st : ReadState) : Prop where
  whole : st.lbuf.Whole
  rc : 0 ≤ st.rc

theorem i2ParseKeyFile.body_settled {st : ReadState} (hst : st.Ready)
    (id_query : Option (List UInt8)) :
    (∀ st', i2ParseKeyFile.body a id_query st = .inl st' → st'.Ready) ∧
      ∀ r, i2ParseKeyFile.body a id_query st = .inr r → r.lbuf.Settled (refused r.err) := by
  have hr := parsefileline_settled (a := a) hst.whole st.fp hst.rc
  rw [i2ParseKeyFile.body]
  generalize parsefileline a st.lbuf st.fp st.rc = r at hr
  by_cases hpos : 0 < r.rc
  · obtain ⟨hwhole, -⟩ := hr.whole hpos
    simp only [if_pos hpos]
    cases keyLine id_query (strAt r.lbuf 0) with
    | reject err =>
        refine ⟨fun _ h => (by cases h), fun _ h => ?_⟩
        obtain rfl := Sum.inr.inj h
        rw [refused_msg]
        exact hwhole.settled
    | skip =>
        refine ⟨fun _ h => ?_, fun _ h => (by cases h)⟩
        obtain rfl := Sum.inl.inj h
        exact ⟨hwhole, Int.le_of_lt hpos⟩
    | hit record =>
        refine ⟨fun _ h => (by cases h), fun _ h => ?_⟩
        obtain rfl := Sum.inr.inj h
        exact hwhole.settled
  · simp only [if_neg hpos]
    refine ⟨fun _ h => (by cases h), fun _ h => ?_⟩
    obtain rfl := Sum.inr.inj h
    exact hr.lbuf

theorem i2ParsePFFile.body_settled {st : ReadState} (hst : st.Ready)
    (id_query : Option (List UInt8)) :
    (∀ st', i2ParsePFFile.body a id_query st = .inl st' → st'.Ready) ∧
      ∀ r, i2ParsePFFile.body a id_query st = .inr (some r) →
        r.lbuf.Settled (refused r.err) := by
  have hr := parsefileline_settled (a := a) hst.whole st.fp hst.rc
  rw [i2ParsePFFile.body]
  generalize parsefileline a st.lbuf st.fp st.rc = r at hr
  by_cases hpos : 0 < r.rc
  · obtain ⟨hwhole, -⟩ := hr.whole hpos
    simp only [if_pos hpos]
    cases hline : pfLine a id_query r.lbuf with
    | none => exact ⟨nofun, nofun⟩
    | some p =>
        obtain ⟨v, lbuf'⟩ := p
        have hsettled := pfLine_settled hwhole hline
        cases v with
        | reject err =>
            refine ⟨fun _ h => (by cases h), fun _ h => ?_⟩
            obtain rfl := Option.some.inj (Sum.inr.inj h)
            exact hsettled
        | skip =>
            refine ⟨fun _ h => ?_, fun _ h => (by cases h)⟩
            obtain rfl := Sum.inl.inj h
            exact ⟨hsettled.whole rfl, Int.le_of_lt hpos⟩
        | hit ret =>
            refine ⟨fun _ h => (by cases h), fun _ h => ?_⟩
            obtain rfl := Option.some.inj (Sum.inr.inj h)
            exact hsettled
  · simp only [if_neg hpos]
    refine ⟨fun _ h => (by cases h), fun _ h => ?_⟩
    obtain rfl := Option.some.inj (Sum.inr.inj h)
    exact hr.lbuf

theorem i2ParseKeyFile_settled (h : lbuf.Whole) (fp : Option (List UInt8)) {rc : ℤ} (hrc : 0 ≤ rc)
    (id_query : Option (List UInt8)) :
    ∃ r, i2ParseKeyFile a lbuf fp rc id_query = some r ∧ r.lbuf.Settled (refused r.err) := by
  cases fp with
  | none => exact ⟨_, rfl, h.settled⟩
  | some fp =>
      obtain ⟨r, hr, hsettled⟩ := @Loop.whileLoop_induct _ _ _ _
        (i2ParseKeyFile.body_decreases (a := a) id_query)
        (fun st r => st.Ready → r.lbuf.Settled (refused r.err))
        (fun st r hbody hst => (i2ParseKeyFile.body_settled hst id_query).2 r hbody)
        (fun st st' r hbody ih hst => ih ((i2ParseKeyFile.body_settled hst id_query).1 st' hbody))
        ⟨rc, fp, [], lbuf⟩
      exact ⟨r, hr, hsettled ⟨h, hrc⟩⟩

theorem i2ParsePFFile_settled (h : lbuf.Whole) (filep : Option (List UInt8)) {rc : ℤ}
    (hrc : 0 ≤ rc) (id_query : Option (List UInt8)) {r : PFRead}
    (hr : i2ParsePFFile a filep rc id_query lbuf = some r) :
    r.lbuf.Settled (refused r.err) := by
  cases filep with
  | none =>
      obtain rfl := Option.some.inj hr
      exact h.settled
  | some fp =>
      obtain ⟨o, ho, hsettled⟩ := @Loop.whileLoop_induct _ _ _ _
        (i2ParsePFFile.body_decreases (a := a) id_query)
        (fun st o => st.Ready → ∀ r, o = some r → r.lbuf.Settled (refused r.err))
        (fun st o hbody hst r ho => by
          subst ho
          exact (i2ParsePFFile.body_settled hst id_query).2 r hbody)
        (fun st st' o hbody ih hst => ih ((i2ParsePFFile.body_settled hst id_query).1 st' hbody))
        ⟨rc, fp, [], lbuf⟩
      rw [i2ParsePFFile, ho] at hr
      exact hsettled ⟨h, hrc⟩ r hr

theorem i2WritePFLine_settled (h : lbuf.Whole) (id : Option (List UInt8)) (bytes : List UInt8) :
    (i2WritePFLine a lbuf id bytes).lbuf.Settled
      (refused (i2WritePFLine a lbuf id bytes).err) := by
  match id with
  | none | some [] => exact h.settled
  | some (c :: id) =>
      rcases h.grow_cases (a := a) (Nat.succ_pos 119) (bytes.length * 2 + 1) with
        ⟨lbuf', hgrow, hwhole, hroom⟩ | ⟨lbuf', hgrow, hlost⟩
      · simp only [i2WritePFLine, hgrow]
        exact (i2HexEncode_whole hwhole (by omega)).settled
      · simp only [i2WritePFLine, hgrow]
        exact hlost.settled

/-! ### Pass-phrases -/

/-- The next byte goes no further than what is counted. -/
structure PassReady (st : PassLine) : Prop where
  whole : st.lbuf.Whole
  p : st.p ≤ st.pf_len

theorem PassReady.grow_cases {st : PassLine} (h : PassReady st) :
    (∃ st', st.grow a = (true, st') ∧ PassReady st' ∧ st'.p < st'.lbuf.max) ∨
      ∃ st', st.grow a = (false, st') ∧ st'.lbuf.Lost := by
  have hp := h.p
  rw [PassLine.grow]
  by_cases hfull : st.lbuf.max < st.pf_len + 1
  · rw [if_pos hfull]
    rcases h.whole.grow_cases (a := a) (Nat.succ_pos 119) (st.pf_len + 1) with
      ⟨lbuf', hgrow, hwhole, hroom⟩ | ⟨lbuf', hgrow, hlost⟩
    · exact .inl ⟨⟨lbuf', st.pf_len, st.pf_len⟩, by rw [hgrow], ⟨hwhole, Nat.le_refl _⟩, hroom⟩
    · exact .inr ⟨⟨lbuf', st.pf_len, st.pf_len⟩, by rw [hgrow], hlost⟩
  · rw [if_neg hfull]
    exact .inl ⟨st, rfl, h, by omega⟩

theorem PassReady.finish_settled {st st' : PassLine} {ok : Bool} (h : PassReady st)
    (hfinish : st.finish a = (ok, st')) : st'.lbuf.Settled (!ok) := by
  rw [PassLine.finish] at hfinish
  rcases h.grow_cases (a := a) with ⟨st₁, hgrow, hready, hp⟩ | ⟨st₁, hgrow, hlost⟩
  · rw [hgrow] at hfinish
    obtain ⟨rfl, rfl⟩ := Prod.mk.inj hfinish
    exact (hready.whole.put hp 0).settled
  · rw [hgrow] at hfinish
    obtain ⟨rfl, rfl⟩ := Prod.mk.inj hfinish
    exact hlost.settled

theorem PassReady.read_settled {st st' : PassLine} {ok : Bool} (h : PassReady st) {flags : UInt32}
    {keys : List UInt8} (hread : i2ReadPassPhraseAlloc.read flags a st keys = (ok, st')) :
    st'.lbuf.Settled (!ok) := by
  induction keys generalizing st with
  | nil => exact h.finish_settled hread
  | cons ch keys ih =>
      rw [i2ReadPassPhraseAlloc.read] at hread
      split_ifs at hread
      · exact h.finish_settled hread
      · rcases h.grow_cases (a := a) with ⟨st₁, hgrow, hready, hp⟩ | ⟨st₁, hgrow, hlost⟩
        · rw [hgrow] at hread
          exact ih ⟨hready.whole.put hp _, Nat.succ_le_succ hready.p⟩ hread
        · rw [hgrow] at hread
          obtain ⟨rfl, rfl⟩ := Prod.mk.inj hread
          exact hlost.settled

/-- An attempt leaves the block whole, or ends with an allocation that is refused. -/
theorem attempt_settled {st : PassLine} (h : st.lbuf.Whole) (flags : UInt32) (att : Attempt) :
    (st.attempt flags a att).2.lbuf.Settled (!(st.attempt flags a att).1) := by
  have hbegin : PassReady { st with p := 0 } := ⟨h, Nat.zero_le _⟩
  exact hbegin.read_settled rfl

/-- Every attempt begins with a whole block. -/
theorem i2ReadPassPhraseAlloc.run_settled {flags : UInt32} {tries : List Attempt} {st : PassLine}
    (h : st.lbuf.Whole) {w : Process} {r : AllocReturn}
    (hrun : i2ReadPassPhraseAlloc.run flags a st tries w = .returned r) :
    r.lbuf.Settled (r.errno = some .ENOMEM) := by
  induction tries generalizing st w with
  | nil => cases hrun
  | cons att tries ih =>
      have hsettled := attempt_settled (a := a) h flags att
      rcases i2ReadPassPhraseAlloc.returned_cases hrun with
        ⟨-, rfl⟩ | ⟨-, hread, rfl⟩ | ⟨-, hread, -, rfl⟩ | ⟨hint, hmore⟩
      · exact h.settled
      · rw [hread] at hsettled
        exact hsettled
      · have herrno : decide (att.errno = some .ENOMEM) = false := by
          rw [Attempt.errno]
          split <;> rfl
        rw [hread] at hsettled
        rw [herrno]
        exact hsettled
      · exact ih (hsettled.whole (by simp [hint.read])) hmore

/-! ### All calls -/

theorem BufferCall.run_settled (h : lbuf.Whole) {call : BufferCall} {e : CallEnd}
    (hrun : call.run a lbuf = some e) : e.lbuf.Settled e.refused := by
  cases call with
  | getConfLine fp rc =>
      obtain rfl := Option.some.inj hrun
      exact (i2GetConfLine_settled h fp (Int.natCast_nonneg rc)).lbuf
  | readConfVar fp rc max =>
      obtain rfl := Option.some.inj hrun
      exact i2ReadConfVar_settled h fp (Int.natCast_nonneg rc) max
  | parseKeyFile fp rc id_query =>
      obtain ⟨r, hr, hsettled⟩ :=
        i2ParseKeyFile_settled (a := a) h fp (Int.natCast_nonneg rc) id_query
      rw [run, hr] at hrun
      obtain rfl := Option.some.inj hrun
      exact hsettled
  | parsePFFile filep rc id_query =>
      obtain ⟨r, hr, rfl⟩ := Option.map_eq_some_iff.mp hrun
      exact i2ParsePFFile_settled h filep (Int.natCast_nonneg rc) id_query hr
  | writePFLine id bytes =>
      obtain rfl := Option.some.inj hrun
      exact i2WritePFLine_settled h id bytes
  | readPassPhraseAlloc flags tries w =>
      rw [run] at hrun
      cases hout : i2ReadPassPhraseAlloc flags a lbuf tries w with
      | returned r =>
          rw [hout] at hrun
          obtain rfl := Option.some.inj hrun
          exact i2ReadPassPhraseAlloc.run_settled h hout
      | waiting =>
          rw [hout] at hrun
          cases hrun
      | killed =>
          rw [hout] at hrun
          cases hrun

/-- From a whole block on, all calls leave blocks as large as the size that is kept if and
only if `realloc` refuses none of them a block. -/
theorem ends_sound_iff (h : lbuf.Whole) (calls : List (Growing.Realloc UInt8 × BufferCall)) :
    (∀ e ∈ ends lbuf calls, e.lbuf.Sound) ↔ ∀ e ∈ ends lbuf calls, e.refused = false := by
  induction calls generalizing lbuf with
  | nil => exact ⟨fun _ => nofun, fun _ => nofun⟩
  | cons p calls ih =>
      obtain ⟨a, call⟩ := p
      rw [ends]
      cases hrun : call.run a lbuf with
      | none => exact ⟨fun _ => nofun, fun _ => nofun⟩
      | some e =>
          have hsettled := BufferCall.run_settled h hrun
          simp only [List.forall_mem_cons, hsettled.sound_iff]
          refine and_congr_right fun hno => ?_
          exact ih (hsettled.whole hno)

def noBuffer : Lbuf := ⟨[], 0, false⟩

/-- The size that is kept is at most that of the block after each call, and none of them
wrote outside of it, if and only if `realloc` refuses no block. -/
theorem sharedBuffer_iff (calls : List (Growing.Realloc UInt8 × BufferCall)) :
    (∀ e ∈ ends noBuffer calls, e.lbuf.max ≤ e.lbuf.cells.length ∧ e.lbuf.overrun = false) ↔
      ∀ e ∈ ends noBuffer calls, e.refused = false := by
  have hwhole : noBuffer.Whole := ⟨rfl, rfl⟩
  refine Iff.trans ?_ (ends_sound_iff hwhole calls)
  exact forall₂_congr fun e _ => ⟨fun h => ⟨h.1, h.2⟩, fun h => ⟨h.max_le, h.no_overrun⟩⟩

/-- The first call is refused a block, and the second one writes through the null pointer. -/
theorem sharedBuffer_lost :
    ∃ e₁ e₂, ends noBuffer [(.refusing, .getConfLine (ascii "key") 0),
        (.padding 0, .writePFLine (some (ascii "jdoe")) [7])] = [e₁, e₂] ∧
      ¬e₁.lbuf.max ≤ e₁.lbuf.cells.length ∧ e₂.lbuf.overrun = true :=
  ⟨_, _, rfl, by decide, rfl⟩

end Buffered

end I2util
