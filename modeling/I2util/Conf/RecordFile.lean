import I2util.Library.Loop
import I2util.Conf.FileLine

/-!
The loop that `I2ParseKeyFile` and `I2ParsePFFile` share: fetch a data line,
judge it, and return it, reject it, or copy it to `tofp` and go on.

The two functions differ in the judgement only, so the loop takes it as a
parameter. A judgement sees the line as a C string.
-/

namespace I2util

/-- What the body of the loop does with one data line. -/
inductive Verdict (ρ : Type)
  | reject (err : Option ErrMsg)
  | skip
  | hit (record : ρ)
  deriving DecidableEq

/-- What one call of a record reader leaves behind. `found` holds what is
stored through the result pointers. -/
structure FileRead (ρ : Type) where
  rc : ℤ
  found : Option ρ
  rest : List UInt8
  out : List UInt8
  err : Option ErrMsg
  deriving DecidableEq

variable {ρ : Type}

def FileRead.print (text : List UInt8) (r : FileRead ρ) : FileRead ρ :=
  { r with out := text ++ r.out }

@[simp] theorem FileRead.print_rc (text : List UInt8) (r : FileRead ρ) :
    (r.print text).rc = r.rc := rfl

@[simp] theorem FileRead.print_found (text : List UInt8) (r : FileRead ρ) :
    (r.print text).found = r.found := rfl

@[simp] theorem FileRead.print_rest (text : List UInt8) (r : FileRead ρ) :
    (r.print text).rest = r.rest := rfl

@[simp] theorem FileRead.print_out (text : List UInt8) (r : FileRead ρ) :
    (r.print text).out = text ++ r.out := rfl

@[simp] theorem FileRead.print_nil (r : FileRead ρ) : r.print [] = r := rfl

@[simp] theorem FileRead.print_print (a b : List UInt8) (r : FileRead ρ) :
    (r.print b).print a = r.print (a ++ b) := by
  simp [FileRead.print]

/-- The state at the head of the loop: the row counter, the stream and what has
been printed to `tofp` so far. -/
structure ReadState where
  rc : ℤ
  fp : List UInt8
  out : List UInt8

def readRecords.body (judge : List UInt8 → Verdict ρ) (st : ReadState) :
    ReadState ⊕ FileRead ρ :=
  let r := parsefileline st.fp st.rc
  let out := st.out ++ r.out
  if 0 < r.rc then
    match judge (cstr r.line) with
    | .reject err => .inr ⟨-r.rc, none, r.rest, out, err⟩
    | .skip => .inl ⟨r.rc, r.rest, out ++ cstr r.line ++ [nl]⟩
    | .hit record => .inr ⟨r.rc, some record, r.rest, out, none⟩
  else .inr ⟨r.rc, none, r.rest, out, r.err⟩

/-- The loop. Each turn consumes a line, so the length of the stream bounds the
number of turns. -/
def readRecords (judge : List UInt8 → Verdict ρ) (fp : List UInt8) (rc : ℤ) :
    Option (FileRead ρ) :=
  Loop.whileLoop (readRecords.body judge) (fun st => st.fp.length) ⟨rc, fp, []⟩

variable {judge : List UInt8 → Verdict ρ}

theorem readRecords.body_decreases :
    Loop.Decreases (readRecords.body judge) fun st => st.fp.length := by
  intro st st' h
  simp only [readRecords.body] at h
  split at h
  · rename_i hrc
    split at h
    · cases h
    · obtain rfl := Sum.inl.inj h
      exact parsefileline_rest_lt hrc
    · cases h
  · cases h

/-- A turn consumes the stream from its beginning. -/
theorem readRecords.body_suffix {st : ReadState} :
    (∀ st', readRecords.body judge st = .inl st' → st'.fp <:+ st.fp) ∧
      ∀ r, readRecords.body judge st = .inr r → r.rest <:+ st.fp := by
  have hsuffix : (parsefileline st.fp st.rc).rest <:+ st.fp := parsefileline.scan_suffix
  constructor
  · intro st' h
    simp only [readRecords.body] at h
    split at h
    · split at h <;> cases h
      exact hsuffix
    · cases h
  · intro r h
    simp only [readRecords.body] at h
    split at h
    · split at h <;> cases h <;> exact hsuffix
    · cases h
      exact hsuffix

/-- What was printed before a turn stays in front of what the turn prints. -/
theorem readRecords.body_out (st : ReadState) (text : List UInt8) :
    readRecords.body judge { st with out := text ++ st.out } =
      match readRecords.body judge st with
      | .inl st' => .inl { st' with out := text ++ st'.out }
      | .inr r => .inr (r.print text) := by
  simp only [readRecords.body]
  split
  · cases judge (cstr (parsefileline st.fp st.rc).line) <;> simp [FileRead.print]
  · simp [FileRead.print]

theorem readRecords.loop_out (st : ReadState) (text : List UInt8) :
    Loop.whileLoop (readRecords.body judge) (fun st => st.fp.length)
        { st with out := text ++ st.out } =
      (Loop.whileLoop (readRecords.body judge) (fun st => st.fp.length) st).map
        (FileRead.print text) := by
  induction hlen : st.fp.length using Nat.strongRecOn generalizing st with
  | _ n ih =>
      subst hlen
      have hout := @readRecords.body_out ρ judge st text
      rw [Loop.whileLoop_eq readRecords.body_decreases st,
        Loop.whileLoop_eq readRecords.body_decreases, hout]
      cases hbody : readRecords.body judge st with
      | inl st' => exact ih _ (readRecords.body_decreases st st' hbody) st' rfl
      | inr r => rfl

/-- The loop unfolded once, with the prints in front. -/
theorem readRecords_eq (fp : List UInt8) (rc : ℤ) :
    readRecords judge fp rc =
      match readRecords.body judge ⟨rc, fp, []⟩ with
      | .inl st => (readRecords judge st.fp st.rc).map (FileRead.print st.out)
      | .inr r => some r := by
  rw [readRecords, Loop.whileLoop_eq readRecords.body_decreases]
  cases readRecords.body judge ⟨rc, fp, []⟩ with
  | inl st =>
      have h := @readRecords.loop_out ρ judge ⟨st.rc, st.fp, []⟩ st.out
      simpa [readRecords] using h
  | inr r => rfl

theorem readRecords_isSome (fp : List UInt8) (rc : ℤ) :
    ∃ r, readRecords judge fp rc = some r := by
  obtain ⟨r, hr, -⟩ := Loop.whileLoop_induct (@readRecords.body_decreases ρ judge)
    (motive := fun _ _ => True) (fun _ _ _ => trivial) (fun _ _ _ _ _ => trivial)
    ⟨rc, fp, []⟩
  exact ⟨r, hr⟩

theorem readRecords_found {fp : List UInt8} {rc : ℤ} {r : FileRead ρ} {record : ρ}
    (hr : readRecords judge fp rc = some r) (hfound : r.found = some record) :
    ∃ line, judge line = .hit record := by
  have hleave : ∀ st r, readRecords.body judge st = .inr r →
      r.found = some record → ∃ line, judge line = .hit record := by
    intro st r h hf
    simp only [readRecords.body] at h
    split at h
    · split at h <;> cases h
      · cases hf
      · rename_i hjudge
        cases hf
        exact ⟨_, hjudge⟩
    · cases h
      cases hf
  obtain ⟨r', hr', hmotive⟩ := Loop.whileLoop_induct (@readRecords.body_decreases ρ judge)
    (motive := fun _ r => r.found = some record → ∃ line, judge line = .hit record)
    hleave (fun _ _ _ _ h => h) ⟨rc, fp, []⟩
  obtain rfl := Option.some.inj (hr'.symm.trans hr)
  exact hmotive hfound

/-! ### One line at a time -/

@[simp] theorem readRecords_nil (rc : ℤ) :
    readRecords judge [] rc = some ⟨0, none, [], [], none⟩ := by
  rw [readRecords_eq]
  simp [readRecords.body]

theorem readRecords_copy {l : FileLine} (hl : ∀ raw h, l ≠ .record raw h)
    (s : List UInt8) (rc : ℤ) :
    readRecords judge (l.text ++ nl :: s) rc =
      (readRecords judge s (rc + 1)).map (FileRead.print (l.copy ++ [nl])) := by
  have hbody : readRecords.body judge ⟨rc, l.text ++ nl :: s, []⟩ =
      readRecords.body judge ⟨rc + 1, s, l.copy ++ [nl]⟩ := by
    simp [readRecords.body, parsefileline_skip hl s]
  have hout := @readRecords.loop_out ρ judge ⟨rc + 1, s, []⟩ (l.copy ++ [nl])
  rw [readRecords, readRecords, ← hout, Loop.whileLoop_eq readRecords.body_decreases, hbody,
    ← Loop.whileLoop_eq readRecords.body_decreases]
  simp

theorem readRecords.body_record {raw eol s out : List UInt8} {rc : ℤ} (hraw : DataText raw)
    (heol : LineEnd eol s) (hrc : 0 ≤ rc) :
    readRecords.body judge ⟨rc, raw ++ (eol ++ s), out⟩ =
      match judge raw with
      | .reject err => .inr ⟨-(rc + 1), none, s, out, err⟩
      | .skip => .inl ⟨rc + 1, s, out ++ raw ++ [nl]⟩
      | .hit record => .inr ⟨rc + 1, some record, s, out, none⟩ := by
  have hpos : 0 < rc + 1 := by omega
  simp [readRecords.body, parsefileline_record hraw heol, hpos, hraw.cstr_eq]

theorem readRecords_skip {raw eol s : List UInt8} {rc : ℤ} (hraw : DataText raw)
    (heol : LineEnd eol s) (hrc : 0 ≤ rc) (hjudge : judge raw = .skip) :
    readRecords judge (raw ++ (eol ++ s)) rc =
      (readRecords judge s (rc + 1)).map (FileRead.print (raw ++ [nl])) := by
  rw [readRecords_eq, readRecords.body_record hraw heol hrc, hjudge]
  simp

theorem readRecords_hit {raw eol s : List UInt8} {rc : ℤ} {record : ρ} (hraw : DataText raw)
    (heol : LineEnd eol s) (hrc : 0 ≤ rc) (hjudge : judge raw = .hit record) :
    readRecords judge (raw ++ (eol ++ s)) rc = some ⟨rc + 1, some record, s, [], none⟩ := by
  rw [readRecords_eq, readRecords.body_record hraw heol hrc, hjudge]

theorem readRecords_reject {raw eol s : List UInt8} {rc : ℤ} {err : Option ErrMsg}
    (hraw : DataText raw) (heol : LineEnd eol s) (hrc : 0 ≤ rc)
    (hjudge : judge raw = .reject err) :
    readRecords judge (raw ++ (eol ++ s)) rc = some ⟨-(rc + 1), none, s, [], err⟩ := by
  rw [readRecords_eq, readRecords.body_record hraw heol hrc, hjudge]

/-- Lines none of which is returned are all copied. -/
theorem readRecords_skips {ls : List FileLine}
    (hskip : ∀ raw h, FileLine.record raw h ∈ ls → judge raw = .skip)
    (s : List UInt8) {rc : ℤ} (hrc : 0 ≤ rc) :
    readRecords judge (FileLine.render ls ++ s) rc =
      (readRecords judge s (rc + ls.length)).map
        (FileRead.print (FileLine.renderCopy ls)) := by
  induction ls generalizing rc with
  | nil =>
      cases h : readRecords judge s rc <;> simp [h]
  | cons l ls ih =>
      have ih := ih (fun raw h hmem => hskip raw h (List.mem_cons_of_mem l hmem))
        (show 0 ≤ rc + 1 by omega)
      have hline : readRecords judge (l.text ++ nl :: (FileLine.render ls ++ s)) rc =
          (readRecords judge (FileLine.render ls ++ s) (rc + 1)).map
            (FileRead.print (l.copy ++ [nl])) := by
        cases l with
        | record raw h =>
            have hjudge := hskip raw h List.mem_cons_self
            simpa [FileLine.text, FileLine.copy] using
              readRecords_skip h (.newline _) hrc hjudge
        | blank ws h => exact readRecords_copy (by simp) _ rc
        | comment text h => exact readRecords_copy (by simp) _ rc
      rw [FileLine.render_cons, List.append_assoc, List.cons_append, hline, ih, Option.map_map]
      have hrows : rc + 1 + (ls.length : ℤ) = rc + ((l :: ls).length : ℕ) := by
        simp only [List.length_cons]
        omega
      rw [hrows]
      congr 1
      funext r
      simp

end I2util
