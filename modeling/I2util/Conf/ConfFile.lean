import I2util.Library.Loop
import I2util.Conf.ConfLine

/-!
Configuration files: keys with optional values, laid out with white space,
comments and continued lines, and what repeated calls of `I2ReadConfVar` read
from them.
-/

namespace I2util

/-- A key or a value of a configuration file. -/
structure IsWord (w : List UInt8) : Prop where
  ne_nil : w ≠ []
  chars : ∀ c ∈ w, isspace c = false ∧ c ≠ 0 ∧ c ≠ backslash
  no_hash : w.head? ≠ some hash

/-- One key with its value, and the white space and the comment around them. A
value comes with the white space before it. -/
structure ConfEntry where
  lead : List UInt8
  key : List UInt8
  sepVal : Option (List UInt8 × List UInt8)
  trail : List UInt8
  comment : Option (List UInt8)
  lead_blank : BlankText lead
  key_ok : IsWord key
  sep_ok : ∀ p ∈ sepVal, BlankText p.1 ∧ p.1 ≠ [] ∧ IsWord p.2
  trail_blank : BlankText trail
  comment_ok : ∀ t ∈ comment, trail ≠ [] ∧ nl ∉ t ∧ backslash ∉ t

/-- A text written with backslash-newline pairs anywhere in it. -/
inductive Spliced : List UInt8 → List UInt8 → Prop
  | nil : Spliced [] []
  | char (c : UInt8) {s t : List UInt8} : Spliced s t → Spliced (c :: s) (c :: t)
  | splice {s t : List UInt8} : Spliced s t → Spliced s (backslash :: nl :: t)

namespace ConfEntry

/-- The value `I2ReadConfVar` returns: empty when there is none. -/
def value (e : ConfEntry) : List UInt8 :=
  match e.sepVal with
  | none => []
  | some (_, val) => val

def afterVal (e : ConfEntry) : List UInt8 :=
  match e.comment with
  | none => e.trail
  | some t => e.trail ++ hash :: t

def afterKey (e : ConfEntry) : List UInt8 :=
  match e.sepVal with
  | none => e.afterVal
  | some (sep, val) => sep ++ (val ++ e.afterVal)

def text (e : ConfEntry) : List UInt8 := e.lead ++ (e.key ++ e.afterKey)

end ConfEntry

/-- A line of a configuration file, or the lines of an entry that is continued. -/
inductive ConfItem
  | blank (ws : List UInt8) (h : BlankText ws)
  | comment (lead text : List UInt8) (hlead : BlankText lead) (h : nl ∉ text)
  | entry (e : ConfEntry) (text : List UInt8) (h : Spliced e.text text)

namespace ConfItem

/-- The characters of an item, without the newline that ends it. -/
def text : ConfItem → List UInt8
  | .blank ws _ => ws
  | .comment lead text _ _ => lead ++ hash :: text
  | .entry _ text _ => text

def render (items : List ConfItem) (eol : List UInt8) : List UInt8 :=
  joinLines (items.map text) eol

def pair : ConfItem → Option (List UInt8 × List UInt8)
  | .entry e _ _ => some (e.key, e.value)
  | _ => none

/-- The keys and values of the items, each with the number of the row its last
line is in, when `row` rows stand before the items. -/
def vars (row : ℤ) : List ConfItem → List (List UInt8 × List UInt8 × ℤ)
  | [] => []
  | l :: items =>
      let last := row + l.text.count nl + 1
      match l.pair with
      | some (key, val) => (key, val, last) :: vars last items
      | none => vars last items

end ConfItem

/-- The state of a program that reads a whole configuration file: the row
number, the stream and what has been read so far. -/
structure ConfState where
  rc : ℤ
  fp : List UInt8
  read : List (Option (List UInt8) × Option (List UInt8) × ℤ)

def readConfVars.body (max : ℕ) (st : ConfState) :
    ConfState ⊕ (List (Option (List UInt8) × Option (List UInt8) × ℤ) × ℤ) :=
  let r := i2ReadConfVar st.fp st.rc max
  if 0 < r.rc then .inl ⟨r.rc, r.rest, st.read ++ [(r.key, r.val, r.rc)]⟩
  else .inr (st.read, r.rc)

/-- Calls of `I2ReadConfVar` until one returns no row number: what was read, and
the last value returned. -/
def readConfVars (max : ℕ) (fp : List UInt8) (rc : ℤ) :
    Option (List (Option (List UInt8) × Option (List UInt8) × ℤ) × ℤ) :=
  Loop.whileLoop (readConfVars.body max) (fun st => st.fp.length) ⟨rc, fp, []⟩

/-! ### Continued lines -/

theorem Spliced.refl (s : List UInt8) : Spliced s s := by
  induction s with
  | nil => exact .nil
  | cons c s ih => exact .char c ih

/-- Once a line has its first character, the rest of a continued text is read
as if it stood on one line. -/
theorem i2GetConfLine.scan_spliced {s t line eol rest : List UInt8} {rc : ℤ}
    (h : Spliced s t) (hline : line ≠ []) (hnl : nl ∉ s) (hback : backslash ∉ s)
    (heol : LineEnd eol rest) :
    i2GetConfLine.scan rc line .text (t ++ (eol ++ rest)) =
      ⟨rc + t.count nl + 1, line ++ s, rest, [], none⟩ := by
  induction h generalizing rc line with
  | nil => rcases heol with rfl | ⟨rfl, rfl⟩ <;> simp [i2GetConfLine.scan, hline]
  | char c _ ih =>
      simp only [List.mem_cons, not_or] at hnl hback
      have hc : c ≠ nl := Ne.symm hnl.1
      have hb : c ≠ backslash := Ne.symm hback.1
      have hne : line ++ [c] ≠ [] := by simp
      have htail := @ih _ rc hne hnl.2 hback.2
      rw [List.count_cons_of_ne hc]
      simpa [i2GetConfLine.scan, hline, hc, hb] using htail
  | splice _ ih =>
      have htail := @ih line (rc + 1) hline hnl hback
      simp only [List.cons_append, i2GetConfLine.scan, hline, backslash_ne_nl, if_false, if_true,
        false_and, htail]
      simp
      omega

/-- A continued text is read as if it stood on one line, without its leading
white space. -/
theorem i2GetConfLine_spliced {s t eol rest : List UInt8} {c : UInt8} {u : List UInt8} {rc : ℤ}
    (h : Spliced s t) (hfirst : s.dropWhile isspace = c :: u) (hhash : c ≠ hash)
    (hnl : nl ∉ s) (hback : backslash ∉ s) (heol : LineEnd eol rest) :
    i2GetConfLine (t ++ (eol ++ rest)) rc =
      ⟨rc + t.count nl + 1, s.dropWhile isspace, rest, [], none⟩ := by
  rw [i2GetConfLine]
  induction h generalizing rc with
  | nil => cases hfirst
  | char d hs ih =>
      simp only [List.mem_cons, not_or] at hnl hback
      have hd : d ≠ nl := Ne.symm hnl.1
      have hb : d ≠ backslash := Ne.symm hback.1
      rw [List.count_cons_of_ne hd]
      cases hspace : isspace d with
      | true =>
          rw [List.dropWhile_cons_of_pos hspace] at hfirst ⊢
          have hdh : d ≠ hash := by
            rintro rfl
            simp at hspace
          have htail := @ih rc hfirst hnl.2 hback.2
          simpa [i2GetConfLine.scan, hd, hdh, hspace] using htail
      | false =>
          rw [List.dropWhile_cons_of_neg (by simp [hspace])] at hfirst ⊢
          obtain ⟨rfl, rfl⟩ := List.cons.inj hfirst
          have htail := @i2GetConfLine.scan_spliced _ _ [d] _ _ rc hs (List.cons_ne_nil d [])
            hnl.2 hback.2 heol
          simpa [i2GetConfLine.scan, hd, hb, hhash, hspace] using htail
  | splice hs ih =>
      have htail := @ih (rc + 1) hfirst hnl hback
      simp only [List.cons_append, i2GetConfLine.scan, backslash_ne_nl, if_false, if_true, htail]
      simp [backslash, hash]
      omega

/-! ### Words -/

theorem IsWord.isspace_false {w : List UInt8} (h : IsWord w) (c : UInt8) (hc : c ∈ w) :
    isspace c = false :=
  (h.chars c hc).1

theorem strtok_word {ws w rest : List UInt8} (hws : ∀ c ∈ ws, isspace c = true)
    (hne : w ≠ []) (hw : ∀ c ∈ w, isspace c = false)
    (hrest : Scan.Stops (fun c => !isspace c) rest) :
    strtok (ws ++ (w ++ rest)) = some (w, rest.tail) := by
  obtain ⟨c, u, rfl⟩ := List.exists_cons_of_ne_nil hne
  have hstop : Scan.Stops isspace ((c :: u) ++ rest) := Scan.stops_append_of_all hne hw
  have hnot : ∀ d ∈ c :: u, (!isspace d) = true := fun d hd => by simp [hw d hd]
  rw [strtok, Scan.dropWhile_append hws hstop]
  show some (((c :: u) ++ rest).takeWhile _, (((c :: u) ++ rest).dropWhile _).tail) = _
  rw [Scan.takeWhile_append hnot hrest, Scan.dropWhile_append hnot hrest]

theorem strtok_space {ws : List UInt8} (hws : ∀ c ∈ ws, isspace c = true) :
    strtok ws = none := by
  rw [strtok, Scan.dropWhile_of_all hws]

/-- The delimiter that ends a token is one that the next call would skip. -/
theorem strtok_tail {rest : List UInt8} (hrest : Scan.Stops (fun c => !isspace c) rest) :
    strtok rest.tail = strtok rest := by
  cases rest with
  | nil => rfl
  | cons c rest =>
      have hc : isspace c = true := by simpa using hrest
      rw [strtok, strtok, List.dropWhile_cons_of_pos hc]
      rfl

theorem strtok_comment {ws t : List UInt8} (hws : ∀ c ∈ ws, isspace c = true) :
    ∃ tok line, strtok (ws ++ hash :: t) = some (tok, line) ∧ tok.head? = some hash := by
  have hstop : Scan.Stops isspace (hash :: t) := by simp
  refine ⟨(hash :: t).takeWhile fun c => !isspace c,
    ((hash :: t).dropWhile fun c => !isspace c).tail, ?_, by simp⟩
  rw [strtok, Scan.dropWhile_append hws hstop]

theorem IsWord.no_nul {w : List UInt8} (h : IsWord w) : (0 : UInt8) ∉ w :=
  fun h0 => (h.chars 0 h0).2.1 rfl

namespace ConfEntry

variable (e : ConfEntry)

/-- An entry as `I2GetConfLine` returns it. -/
theorem dropWhile_text : e.text.dropWhile I2util.isspace = e.key ++ e.afterKey :=
  Scan.dropWhile_append e.lead_blank.isspace
    (Scan.stops_append_of_all e.key_ok.ne_nil e.key_ok.isspace_false)

variable {e}

theorem afterVal_of_none (h : e.comment = none) : e.afterVal = e.trail := by
  rw [afterVal, h]

theorem afterVal_of_some {t : List UInt8} (h : e.comment = some t) :
    e.afterVal = e.trail ++ hash :: t := by
  rw [afterVal, h]

theorem afterKey_of_none (h : e.sepVal = none) : e.afterKey = e.afterVal := by
  rw [afterKey, h]

theorem afterKey_of_some {sep val : List UInt8} (h : e.sepVal = some (sep, val)) :
    e.afterKey = sep ++ (val ++ e.afterVal) := by
  rw [afterKey, h]

variable (e)

/-- Neither a newline nor a backslash stands in the text of an entry. -/
theorem text_chars : nl ∉ e.text ∧ backslash ∉ e.text := by
  have hblank : ∀ ws : List UInt8, BlankText ws → nl ∉ ws ∧ backslash ∉ ws := fun ws h =>
    ⟨fun hmem => (h nl hmem).2 rfl, fun hmem => by simpa using (h backslash hmem).1⟩
  have hword : ∀ w : List UInt8, IsWord w → nl ∉ w ∧ backslash ∉ w := fun w h =>
    ⟨fun hmem => by simpa using (h.chars nl hmem).1,
      fun hmem => (h.chars backslash hmem).2.2 rfl⟩
  have hval : nl ∉ e.afterVal ∧ backslash ∉ e.afterVal := by
    cases h : e.comment with
    | none =>
        rw [afterVal_of_none h]
        exact hblank _ e.trail_blank
    | some t =>
        obtain ⟨-, hnl, hback⟩ := e.comment_ok t h
        rw [afterVal_of_some h]
        simp [hblank _ e.trail_blank, hnl, hback, Ne.symm hash_ne_nl, hash_ne_backslash.symm]
  have hkey : nl ∉ e.afterKey ∧ backslash ∉ e.afterKey := by
    cases h : e.sepVal with
    | none =>
        rw [afterKey_of_none h]
        exact hval
    | some p =>
        obtain ⟨hsep, -, hp⟩ := e.sep_ok p h
        rw [afterKey_of_some h]
        simp [hblank _ hsep, hword _ hp, hval]
  simp [text, hblank _ e.lead_blank, hword _ e.key_ok, hkey]

theorem stops_afterVal : Scan.Stops (fun c => !I2util.isspace c) e.afterVal := by
  have hblank : ∀ c ∈ e.trail, (!I2util.isspace c) = false := fun c hc => by
    simp [e.trail_blank.isspace c hc]
  cases h : e.comment with
  | none =>
      rw [afterVal_of_none h]
      exact Scan.stops_of_all hblank
  | some t =>
      rw [afterVal_of_some h]
      exact Scan.stops_append_of_all (e.comment_ok t h).1 hblank

theorem stops_afterKey : Scan.Stops (fun c => !I2util.isspace c) e.afterKey := by
  cases h : e.sepVal with
  | none =>
      rw [afterKey_of_none h]
      exact e.stops_afterVal
  | some p =>
      obtain ⟨hblank, hne, -⟩ := e.sep_ok p h
      rw [afterKey_of_some h]
      exact Scan.stops_append_of_all hne fun c hc => by simp [hblank.isspace c hc]

/-- After the value `strtok` finds nothing or a comment. -/
theorem strtok_afterVal : strtok e.afterVal = none ∨
    ∃ tok line, strtok e.afterVal = some (tok, line) ∧ tok.head? = some hash := by
  cases h : e.comment with
  | none =>
      rw [afterVal_of_none h]
      exact .inl (strtok_space e.trail_blank.isspace)
  | some t =>
      rw [afterVal_of_some h]
      exact .inr (strtok_comment e.trail_blank.isspace)

theorem trailingRc_afterVal (rc : ℤ) : trailingRc rc e.afterVal.tail = rc := by
  rw [trailingRc, strtok_tail e.stops_afterVal]
  rcases e.strtok_afterVal with h | ⟨tok, line, h, hhash⟩
  · rw [h]
  · rw [h]
    simp [hhash]

/-- The entry up to the first NUL of its comment. -/
def cut : ConfEntry :=
  { e with
    comment := e.comment.map cstr
    comment_ok := by
      intro t ht
      obtain ⟨u, hu, rfl⟩ := Option.map_eq_some_iff.mp ht
      obtain ⟨hne, hnl, hback⟩ := e.comment_ok u hu
      have hsub : cstr u ⊆ u := (List.takeWhile_prefix _).subset
      exact ⟨hne, fun h => hnl (hsub h), fun h => hback (hsub h)⟩ }

theorem cstr_text : cstr (e.key ++ e.afterKey) = e.key ++ e.cut.afterKey := by
  have hval : cstr e.afterVal = e.cut.afterVal := by
    cases h : e.comment with
    | none =>
        have hcut : e.cut.comment = none := by simp [cut, h]
        rw [afterVal_of_none h, afterVal_of_none hcut, cstr_of_not_mem e.trail_blank.no_nul]
        rfl
    | some t =>
        have hcut : e.cut.comment = some (cstr t) := by simp [cut, h]
        rw [afterVal_of_some h, afterVal_of_some hcut, cstr_append e.trail_blank.no_nul]
        rfl
  rw [cstr_append e.key_ok.no_nul]
  cases h : e.sepVal with
  | none =>
      have hcut : e.cut.sepVal = none := h
      rw [afterKey_of_none h, afterKey_of_none hcut, hval]
  | some p =>
      obtain ⟨hblank, -, hword⟩ := e.sep_ok p h
      have hcut : e.cut.sepVal = some p := h
      rw [afterKey_of_some h, afterKey_of_some hcut, cstr_append hblank.no_nul,
        cstr_append hword.no_nul, hval]

end ConfEntry

theorem i2ReadConfVar_entry {fp rest : List UInt8} {rc row : ℤ} {max : ℕ} (e : ConfEntry)
    (hline : i2GetConfLine fp rc = ⟨row, e.key ++ e.afterKey, rest, [], none⟩) (hrow : 0 < row)
    (hkey : e.key.length + 1 ≤ max) (hval : e.value.length + 1 ≤ max) :
    i2ReadConfVar fp rc max = ⟨row, some e.key, some e.value, rest, none⟩ := by
  have hshort : ¬max < e.key.length + 1 := Nat.not_lt.mpr hkey
  have htok : strtok (e.key ++ e.cut.afterKey) = some (e.key, e.cut.afterKey.tail) :=
    @strtok_word [] _ _ (by simp) e.key_ok.ne_nil e.key_ok.isspace_false e.cut.stops_afterKey
  simp only [i2ReadConfVar, hline, if_pos hrow, e.cstr_text, htok, if_neg hshort]
  rw [i2ReadConfVar.value, strtok_tail e.cut.stops_afterKey]
  cases h : e.sepVal with
  | none =>
      have hvalue : e.value = [] := by rw [ConfEntry.value, h]
      have hcut : e.cut.sepVal = none := h
      rw [ConfEntry.afterKey_of_none hcut, hvalue]
      rcases e.cut.strtok_afterVal with hnone | ⟨tok, line, hsome, hhash⟩
      · rw [hnone]
        rfl
      · rw [hsome]
        simp only [hhash, if_true]
  | some p =>
      obtain ⟨hblank, -, hword⟩ := e.sep_ok p h
      have hvalue : e.value = p.2 := by rw [ConfEntry.value, h]
      have hfits : ¬max < p.2.length + 1 := by
        rw [← hvalue]
        exact Nat.not_lt.mpr hval
      have hcut : e.cut.sepVal = some p := h
      rw [ConfEntry.afterKey_of_some hcut, strtok_word hblank.isspace hword.ne_nil
        hword.isspace_false e.cut.stops_afterVal, hvalue]
      simp only [hword.no_hash, hfits, if_false, e.cut.trailingRc_afterVal]

/-! ### Whole files -/

theorem readConfVars.body_decreases (max : ℕ) :
    Loop.Decreases (readConfVars.body max) fun st => st.fp.length := by
  intro st st' h
  simp only [readConfVars.body] at h
  split at h
  · rename_i hpos
    obtain rfl := Sum.inl.inj h
    rw [i2ReadConfVar_rest]
    apply i2GetConfLine_rest_lt
    by_contra hle
    rw [i2ReadConfVar_rc_le (Int.not_lt.mp hle)] at hpos
    exact hle hpos
  · cases h

namespace ConfItem

/-- An item that holds no entry. -/
theorem i2GetConfLine_gap {l : ConfItem} {eol s : List UInt8} (hl : l.pair = none)
    (heol : LineEnd eol s) (rc : ℤ) :
    i2GetConfLine (l.text ++ (eol ++ s)) rc = i2GetConfLine s (rc + l.text.count nl + 1) := by
  have hcount : l.text.count nl = 0 := by
    cases l with
    | blank ws h => exact List.count_eq_zero.mpr fun hmem => (h nl hmem).2 rfl
    | comment lead text hlead h =>
        have hnl : nl ∉ lead := fun hmem => (hlead nl hmem).2 rfl
        simp [ConfItem.text, List.count_eq_zero.mpr hnl, List.count_eq_zero.mpr h]
    | entry e text h => cases hl
  rw [hcount]
  cases l with
  | blank ws h =>
      rw [ConfItem.text, i2GetConfLine_blank h]
      rcases heol with rfl | ⟨rfl, rfl⟩ <;> simp
  | comment lead text hlead h =>
      rw [ConfItem.text, List.append_assoc, i2GetConfLine_blank hlead]
      rcases heol with rfl | ⟨rfl, rfl⟩
      · simpa using i2GetConfLine_comment h s rc
      · simpa using i2GetConfLine_last_comment h rc
  | entry e text h => cases hl

theorem i2ReadConfVar_gap {l : ConfItem} {eol s : List UInt8} {max : ℕ} (hl : l.pair = none)
    (heol : LineEnd eol s) (rc : ℤ) :
    i2ReadConfVar (l.text ++ (eol ++ s)) rc max =
      i2ReadConfVar s (rc + l.text.count nl + 1) max := by
  simp only [i2ReadConfVar, i2GetConfLine_gap hl heol]

theorem render_cons (l : ConfItem) (items : List ConfItem) {eol : List UInt8}
    (heol : FileEnd eol) :
    ∃ e, render (l :: items) eol = l.text ++ (e ++ render items eol) ∧
      LineEnd e (render items eol) :=
  joinLines_cons l.text (items.map text) heol

def Fits (max : ℕ) (l : ConfItem) : Prop :=
  ∀ p ∈ l.pair, p.1.length + 1 ≤ max ∧ p.2.length + 1 ≤ max

theorem i2ReadConfVar_pair {l : ConfItem} {eol s key val : List UInt8} {rc : ℤ} {max : ℕ}
    (hl : l.pair = some (key, val)) (hfits : l.Fits max) (heol : LineEnd eol s) (hrc : 0 ≤ rc) :
    i2ReadConfVar (l.text ++ (eol ++ s)) rc max =
      ⟨rc + l.text.count nl + 1, some key, some val, s, none⟩ := by
  cases l with
  | entry e text h =>
      obtain ⟨hkey, hval⟩ := hfits _ hl
      cases hl
      obtain ⟨c, u, hcu⟩ := List.exists_cons_of_ne_nil e.key_ok.ne_nil
      have hhash : c ≠ hash := by
        rintro rfl
        exact e.key_ok.no_hash (by rw [hcu]; rfl)
      have hfirst : e.text.dropWhile isspace = c :: (u ++ e.afterKey) := by
        rw [e.dropWhile_text, hcu]
        rfl
      have hline := @i2GetConfLine_spliced _ _ _ _ _ _ rc h hfirst hhash e.text_chars.1
        e.text_chars.2 heol
      rw [e.dropWhile_text] at hline
      have hrow : 0 < rc + text.count nl + 1 := by omega
      exact i2ReadConfVar_entry e hline hrow hkey hval
  | blank ws h => cases hl
  | comment lead text hlead h => cases hl

/-- Reading the rest of a file from some row on. -/
theorem readConfVars_items {items : List ConfItem} {eol : List UInt8} {max : ℕ}
    (heol : FileEnd eol) (hfits : ∀ l ∈ items, l.Fits max) {rc : ℤ} (hrc : 0 ≤ rc)
    (read : List (Option (List UInt8) × Option (List UInt8) × ℤ)) :
    Loop.whileLoop (readConfVars.body max) (fun st => st.fp.length)
        ⟨rc, render items eol, read⟩ =
      some (read ++ (vars rc items).map fun v => (some v.1, some v.2.1, v.2.2), 0) := by
  induction items generalizing rc read with
  | nil =>
      have hbody : readConfVars.body max ⟨rc, [], read⟩ = .inr (read, 0) := by
        simp [readConfVars.body, i2ReadConfVar]
      rw [render, List.map_nil, joinLines, Loop.whileLoop_leaves hbody]
      simp [vars]
  | cons l items ih =>
      obtain ⟨e, he, hend⟩ := render_cons l items heol
      have hrow : 0 ≤ rc + l.text.count nl + 1 := by omega
      have ih := ih (fun l' hl' => hfits l' (List.mem_cons_of_mem l hl')) hrow
      rw [he, vars]
      cases hl : l.pair with
      | none =>
          have hbody : readConfVars.body max ⟨rc, l.text ++ (e ++ render items eol), read⟩ =
              readConfVars.body max ⟨rc + l.text.count nl + 1, render items eol, read⟩ := by
            simp only [readConfVars.body, i2ReadConfVar_gap hl hend]
          rw [Loop.whileLoop_eq (readConfVars.body_decreases max), hbody,
            ← Loop.whileLoop_eq (readConfVars.body_decreases max), ih]
      | some p =>
          have hread := i2ReadConfVar_pair hl (hfits l List.mem_cons_self) hend hrc
          have hpos : 0 < rc + l.text.count nl + 1 := by omega
          have hbody : readConfVars.body max ⟨rc, l.text ++ (e ++ render items eol), read⟩ =
              .inl ⟨rc + l.text.count nl + 1, render items eol,
                read ++ [(some p.1, some p.2, rc + l.text.count nl + 1)]⟩ := by
            simp only [readConfVars.body, hread, if_pos hpos]
          rw [Loop.whileLoop_goes_on (readConfVars.body_decreases max) hbody, ih]
          simp

theorem vars_pos {row : ℤ} {items : List ConfItem} (hrow : 0 ≤ row)
    {v : List UInt8 × List UInt8 × ℤ} (hv : v ∈ vars row items) : 0 < v.2.2 := by
  induction items generalizing row with
  | nil => cases hv
  | cons l items ih =>
      have hlast : 0 ≤ row + l.text.count nl + 1 := by omega
      rw [vars] at hv
      cases hl : l.pair with
      | none =>
          simp only [hl] at hv
          exact ih hlast hv
      | some p =>
          simp only [hl, List.mem_cons] at hv
          rcases hv with rfl | hv
          · show 0 < row + l.text.count nl + 1
            omega
          · exact ih hlast hv

/-- A configuration file, however it is laid out, is read as its keys and values
in order, each with the positive number of the row it ends in, and then 0. -/
theorem readConfVars_render (items : List ConfItem) (eol : List UInt8) (max : ℕ)
    (heol : FileEnd eol) (hfits : ∀ l ∈ items, l.Fits max) :
    readConfVars max (render items eol) 0 =
        some ((vars 0 items).map fun v => (some v.1, some v.2.1, v.2.2), 0) ∧
      ∀ v ∈ vars 0 items, 0 < v.2.2 := by
  refine ⟨?_, fun v hv => vars_pos (Int.le_refl 0) hv⟩
  rw [readConfVars, readConfVars_items heol hfits (Int.le_refl 0), List.nil_append]

end ConfItem

def portEntry : ConfEntry where
  lead := [blank]
  key := ascii "port"
  sepVal := some ([tab], ascii "861")
  trail := [blank]
  comment := some (ascii " control")
  lead_blank := by unfold BlankText; decide
  key_ok := ⟨by decide, by decide, by decide⟩
  sep_ok := by
    rintro p ⟨⟩
    exact ⟨by unfold BlankText; decide, by decide, by decide, by decide, by decide⟩
  trail_blank := by unfold BlankText; decide
  comment_ok := by
    rintro t ⟨⟩
    exact ⟨by decide, by decide, by decide⟩

namespace ConfItem

def portItems : List ConfItem :=
  [.comment [] (ascii " ports") .nil (by decide),
    .entry portEntry (ascii " po" ++ backslash :: nl :: ascii "rt\t861 # control")
      (.char _ (.char _ (.char _ (.splice (.refl (ascii "rt\t861 # control"))))))]

theorem readConfVars_portItems :
    readConfVars 16 (ascii "# ports\n po\\\nrt\t861 # control") 0 =
        some ([(some (ascii "port"), some (ascii "861"), 3)], 0) ∧
      ∀ v ∈ vars 0 portItems, 0 < v.2.2 := by
  have hfits : ∀ l ∈ portItems, l.Fits 16 := by
    intro l hl
    simp only [portItems, List.mem_cons, List.not_mem_nil, or_false] at hl
    rcases hl with rfl | rfl
    · rintro p ⟨⟩
    · rintro p ⟨⟩
      exact ⟨by decide, by decide⟩
  exact readConfVars_render portItems [] 16 (.inr rfl) hfits

end ConfItem

end I2util
