import I2util.Store.Store

/-!
What a successful update writes, as a function of the old text.

`newText` goes over the old text once: it copies the lines, and puts the new one
in the place of the record, or at the end when there is none. (The end is the
place where the reader stops for the first time; it stops at a first row that it
rejects, too.)
-/

namespace I2util

namespace Format

variable (F : Format)

/-- The new text from a place in the old text on. `placed` says that the new line has
been written. -/
def newLines (id new : List UInt8) : ℕ → Bool → ℤ → List UInt8 → List UInt8
  | 0, _, _, _ => []
  | n + 1, placed, rc, fp =>
      let r := parsefileline fp rc
      let line := cstr r.line
      if 0 < r.rc then
        match F.judge (some id) line with
        | .skip => r.out ++ (line ++ nl :: newLines id new n placed r.rc r.rest)
        | _ => r.out ++ (new ++ newLines id new n true r.rc r.rest)
      else if placed = true then r.out
      else r.out ++ (new ++ newLines id new n true r.rc r.rest)

/-- The new text of a file; `none` is a file that does not exist. -/
def newText (fp : Option (List UInt8)) (id new : List UInt8) : List UInt8 :=
  match fp with
  | none => new
  | some fp => F.newLines id new (fp.length + 2) false 0 fp

def newLine (id : List UInt8) (value : Option (List UInt8)) : List UInt8 :=
  match value with
  | none => []
  | some value => (F.write id value).2

/-! ### An update, a part at a time -/

/-- An update after the first pass. -/
def finishUpdate (fp : Option (List UInt8)) (rc : ℤ) (id : List UInt8)
    (value : Option (List UInt8)) (out : List UInt8) : Option (ℕ × List UInt8) :=
  match value with
  | none => if rc = 0 then some (1, out) else F.copyRest fp rc id out
  | some value =>
      let (ret, line) := F.write id value
      if ret < 0 then some (1, out ++ line) else F.copyRest fp rc id (out ++ line)

/-- An update from a place in the first pass on. -/
def updateFrom (fp : Option (List UInt8)) (rc : ℤ) (id : List UInt8)
    (value : Option (List UInt8)) (out : List UInt8) : Option (ℕ × List UInt8) :=
  (F.read fp rc (some id)).bind fun r =>
    if r.rc < 0 then some (1, out ++ r.out)
    else F.finishUpdate (fp.map fun _ => r.rest) r.rc id value (out ++ r.out)

theorem updateFrom_zero (fp : Option (List UInt8)) (id : List UInt8)
    (value : Option (List UInt8)) : F.updateFrom fp 0 id value [] = F.update fp id value := by
  rw [updateFrom, update]
  cases value <;> rfl

theorem read_eq (fp : List UInt8) (rc : ℤ) (query : Option (List UInt8)) :
    F.read (some fp) rc query =
      match readRecords.body (F.judge query) ⟨rc, fp, []⟩ with
      | .inl st => (F.read (some st.fp) st.rc query).map (FileRead.print st.out)
      | .inr r => some r := by
  rw [read, readRecords_eq]
  cases readRecords.body (F.judge query) ⟨rc, fp, []⟩ with
  | inl st => rfl
  | inr r => rfl

/-- The first pass, one turn of the loop at a time. -/
theorem updateFrom_eq (fp : List UInt8) (rc : ℤ) (id : List UInt8)
    (value : Option (List UInt8)) (out : List UInt8) :
    F.updateFrom (some fp) rc id value out =
      match readRecords.body (F.judge (some id)) ⟨rc, fp, []⟩ with
      | .inl st => F.updateFrom (some st.fp) st.rc id value (out ++ st.out)
      | .inr r =>
          if r.rc < 0 then some (1, out ++ r.out)
          else F.finishUpdate (some r.rest) r.rc id value (out ++ r.out) := by
  rw [updateFrom, read_eq]
  cases readRecords.body (F.judge (some id)) ⟨rc, fp, []⟩ with
  | inl st =>
      dsimp only
      rw [updateFrom]
      cases F.read (some st.fp) st.rc (some id) with
      | none => rfl
      | some r =>
          simp only [Option.map_some, Option.bind_some, FileRead.print_rc, FileRead.print_rest,
            FileRead.print_out, List.append_assoc]
          rfl
  | inr r => rfl

/-- The second pass, one turn of the loop at a time. -/
theorem copyRest_eq (fp : List UInt8) (rc : ℤ) (id out : List UInt8) :
    F.copyRest (some fp) rc id out =
      match readRecords.body (F.judge (some id)) ⟨rc, fp, []⟩ with
      | .inl st => F.copyRest (some st.fp) st.rc id (out ++ st.out)
      | .inr r => if r.rc ≠ 0 then some (1, out ++ r.out) else some (0, out ++ r.out) := by
  rw [copyRest, read_eq]
  cases readRecords.body (F.judge (some id)) ⟨rc, fp, []⟩ with
  | inl st =>
      dsimp only
      rw [copyRest]
      cases F.read (some st.fp) st.rc (some id) with
      | none => rfl
      | some r =>
          simp only [Option.map_some, FileRead.print_rc, FileRead.print_out, List.append_assoc]
          rfl
  | inr r =>
      simp only [Option.map_some]
      split <;> rfl

theorem read_isSome (fp : Option (List UInt8)) (rc : ℤ) (query : Option (List UInt8)) :
    ∃ r, F.read fp rc query = some r := by
  cases fp with
  | none => exact ⟨_, rfl⟩
  | some fp => exact readRecords_isSome fp rc

theorem copyRest_isSome (fp : Option (List UInt8)) (rc : ℤ) (id out : List UInt8) :
    ∃ r, F.copyRest fp rc id out = some r := by
  obtain ⟨r, hr⟩ := F.read_isSome fp rc (some id)
  exact ⟨_, by rw [copyRest, hr]; rfl⟩

theorem update_isSome (fp : Option (List UInt8)) (id : List UInt8)
    (value : Option (List UInt8)) : ∃ r, F.update fp id value = some r := by
  obtain ⟨r, hr⟩ := F.read_isSome fp 0 (some id)
  rw [update, hr, Option.bind_some]
  split
  · exact ⟨_, rfl⟩
  · cases value with
    | none =>
        dsimp only
        split
        · exact ⟨_, rfl⟩
        · exact F.copyRest_isSome _ _ _ _
    | some value =>
        dsimp only
        split
        · exact ⟨_, rfl⟩
        · exact F.copyRest_isSome _ _ _ _

/-! ### The new text is what an update writes -/

theorem newLines_skip {id new : List UInt8} {n : ℕ} {placed : Bool} {rc : ℤ}
    {fp : List UInt8} {st : ReadState}
    (h : readRecords.body (F.judge (some id)) ⟨rc, fp, []⟩ = .inl st) :
    F.newLines id new (n + 1) placed rc fp =
      st.out ++ F.newLines id new n placed st.rc st.fp := by
  simp only [readRecords.body] at h
  rw [newLines]
  split at h
  · rename_i hrc
    split at h
    · cases h
    · rename_i hskip
      obtain rfl := Sum.inl.inj h
      simp [hrc, hskip]
    · cases h
  · cases h

theorem newLines_return {id new : List UInt8} {n : ℕ} {rc : ℤ} {fp : List UInt8}
    {r : FileRead (List UInt8 × List UInt8)}
    (h : readRecords.body (F.judge (some id)) ⟨rc, fp, []⟩ = .inr r) (hrc : 0 ≤ r.rc) :
    F.newLines id new (n + 1) false rc fp =
      r.out ++ (new ++ F.newLines id new n true r.rc r.rest) := by
  simp only [readRecords.body] at h
  rw [newLines]
  split at h
  · rename_i hpos
    split at h
    · obtain rfl := Sum.inr.inj h
      simp only at hrc
      omega
    · cases h
    · rename_i hhit
      obtain rfl := Sum.inr.inj h
      simp [hpos, hhit]
  · rename_i hpos
    obtain rfl := Sum.inr.inj h
    simp [hpos]

theorem newLines_end {id new : List UInt8} {n : ℕ} {rc : ℤ} {fp : List UInt8}
    {r : FileRead (List UInt8 × List UInt8)}
    (h : readRecords.body (F.judge (some id)) ⟨rc, fp, []⟩ = .inr r) (hrc : r.rc = 0) :
    F.newLines id new (n + 1) true rc fp = r.out := by
  simp only [readRecords.body] at h
  rw [newLines]
  split at h
  · rename_i hpos
    split at h
    · obtain rfl := Sum.inr.inj h
      simp only at hrc
      omega
    · cases h
    · obtain rfl := Sum.inr.inj h
      simp only at hrc
      omega
  · rename_i hpos
    obtain rfl := Sum.inr.inj h
    simp [hpos]

theorem newLines_copyRest {id new : List UInt8} {n : ℕ} {rc : ℤ} {fp out text : List UInt8}
    (hn : fp.length < n) (h : F.copyRest (some fp) rc id out = some (0, text)) :
    text = out ++ F.newLines id new n true rc fp := by
  induction n generalizing rc fp out with
  | zero => omega
  | succ n ih =>
      rw [copyRest_eq] at h
      cases hbody : readRecords.body (F.judge (some id)) ⟨rc, fp, []⟩ with
      | inl st =>
          -- a line that is copied
          have hlt : st.fp.length < fp.length := readRecords.body_decreases _ _ hbody
          rw [hbody] at h
          rw [F.newLines_skip hbody, ← List.append_assoc]
          exact ih (by omega) h
      | inr r =>
          rw [hbody] at h
          dsimp only at h
          split at h
          · cases h
          · rename_i hzero
            cases h
            rw [F.newLines_end hbody (not_not.mp hzero)]

theorem newLines_updateFrom {id : List UInt8} {value : Option (List UInt8)} {n : ℕ} {rc : ℤ}
    {fp out text : List UInt8} (hn : fp.length + 1 < n)
    (h : F.updateFrom (some fp) rc id value out = some (0, text)) :
    text = out ++ F.newLines id (F.newLine id value) n false rc fp := by
  induction n generalizing rc fp out with
  | zero => omega
  | succ n ih =>
      rw [updateFrom_eq] at h
      cases hbody : readRecords.body (F.judge (some id)) ⟨rc, fp, []⟩ with
      | inl st =>
          have hlt : st.fp.length < fp.length := readRecords.body_decreases _ _ hbody
          rw [hbody] at h
          rw [F.newLines_skip hbody, ← List.append_assoc]
          exact ih (by omega) h
      | inr r =>
          have hle : r.rest.length ≤ fp.length := (readRecords.body_suffix.2 r hbody).length_le
          rw [hbody] at h
          dsimp only at h
          split at h
          · cases h
          · rename_i hrc
            rw [F.newLines_return hbody (not_lt.mp hrc)]
            -- behind the new line the rest is copied
            have hcopy : ∀ line, F.copyRest (some r.rest) r.rc id (out ++ r.out ++ line) =
                some (0, text) → text = out ++ (r.out ++ (line ++
                  F.newLines id (F.newLine id value) n true r.rc r.rest)) := by
              intro line hline
              have htext := @newLines_copyRest F id (F.newLine id value) n _ _ _ _ (by omega) hline
              simpa using htext
            cases value with
            | none =>
                rw [finishUpdate] at h
                split at h
                · cases h
                · exact hcopy [] (by simpa using h)
            | some v =>
                simp only [finishUpdate] at h
                split at h
                · cases h
                · exact hcopy _ h

theorem newText_update {fp : Option (List UInt8)} {id : List UInt8}
    {value : Option (List UInt8)} {text : List UInt8}
    (h : F.update fp id value = some (0, text)) :
    text = F.newText fp id (F.newLine id value) := by
  rw [← updateFrom_zero] at h
  cases fp with
  | none =>
      simp only [updateFrom, read, Option.bind_some] at h
      cases value with
      | none => simp [finishUpdate] at h
      | some v =>
          have hpos : ¬(0 : ℤ) < 0 := Int.lt_irrefl 0
          simp only [finishUpdate, copyRest, read, hpos, if_false, Option.map_none, Option.map_some,
            List.append_nil, List.nil_append] at h
          split at h <;> cases h
          rfl
  | some fp =>
      exact @newLines_updateFrom F id value (fp.length + 2) 0 fp [] text (by omega) h

end Format

namespace Store

variable {F : Format} {s : Store F} {id : List UInt8}

/-- The new text of a store is the text of the updated store. -/
theorem newText_put (r : NewRecord F) (hs : s.Distinguishes r.id) :
    F.newText (some s.text) r.id (F.newLine r.id (some r.value)) = (s.put r).text :=
  (F.newText_update (update_put r hs)).symm

theorem newText_erase (hs : s.Distinguishes id) (hmem : id ∈ s.ids) :
    F.newText (some s.text) id (F.newLine id none) = (s.erase id).text := by
  have hupdate := update_erase hs
  rw [if_pos hmem] at hupdate
  exact (F.newText_update hupdate).symm

end Store

end I2util
