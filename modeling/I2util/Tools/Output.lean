import I2util.Store.NewText
import I2util.Tools.Main

/-!
A process that copies the file.

`Output` says what has been printed to `tofp` and how much of it has reached the
lock file. `todo` is what is left of the update at each point of the program;
`Working` says that, together with what has been printed, it makes the whole.
-/

namespace I2util

variable {P : Type} [DecidableEq P]

/-! ### Printing -/

/-- `tofp` is the inode `i`, which held `left` when it was opened, and `printed` has
been printed to it. What has been written are full buffers. -/
structure Output (bufsiz : ℕ) (fs : Files P) (s : Proc) (i : ℕ) (left printed : List UInt8) :
    Prop where
  tofp : s.tofp = some i
  written_le : s.written ≤ printed.length
  data : fs.data i = printed.take s.written ++ left.drop s.written
  buf : s.buf = printed.drop s.written
  dvd : bufsiz ∣ s.written

/-- A buffer is only written out for a byte that follows it. -/
def Proc.Pending (s : Proc) : Prop := s.written = 0 ∨ s.buf ≠ []

omit [DecidableEq P] in
theorem Proc.Pending.print {s : Proc} (h : s.Pending) (text : List UInt8) :
    (s.print text).Pending :=
  h.imp id fun hne => List.append_ne_nil_of_left_ne_nil hne text

omit [DecidableEq P] in
theorem Proc.Pending.flush {bufsiz : ℕ} (fs : Files P) {s : Proc}
    (hfull : bufsiz < s.buf.length) : (flush bufsiz fs s).2.Pending := by
  have hrest : s.buf.drop bufsiz ≠ [] := List.ne_nil_of_length_pos (by
    rw [List.length_drop]
    omega)
  rw [I2util.flush]
  split
  · exact .inr (List.ne_nil_of_length_pos (Nat.zero_lt_of_lt hfull))
  · exact .inr hrest

section Flush

variable (n : ℕ) (fs : Files P) (s : Proc)

omit [DecidableEq P]

@[simp] theorem flush_dir : (flush n fs s).1.dir = fs.dir := by
  rw [flush]
  split <;> rfl

@[simp] theorem flush_owner : (flush n fs s).1.owner = fs.owner := by
  rw [flush]
  split <;> rfl

theorem flush_data_of_ne {j : ℕ} (h : s.tofp ≠ some j) : (flush n fs s).1.data j = fs.data j := by
  rw [flush]
  split
  · rfl
  · rename_i i hi
    have hne : j ≠ i := by
      rintro rfl
      exact h hi
    exact Function.update_of_ne hne _ _

@[simp] theorem flush_phase : (flush n fs s).2.phase = s.phase := by
  rw [flush]
  split <;> rfl

@[simp] theorem flush_fromfp : (flush n fs s).2.fromfp = s.fromfp := by
  rw [flush]
  split <;> rfl

@[simp] theorem flush_pos : (flush n fs s).2.pos = s.pos := by
  rw [flush]
  split <;> rfl

@[simp] theorem flush_rc : (flush n fs s).2.rc = s.rc := by
  rw [flush]
  split <;> rfl

end Flush

namespace Output

omit [DecidableEq P]

variable {bufsiz i : ℕ} {fs fs' : Files P} {s s' : Proc} {left printed : List UInt8}

/-- Only the inode and what concerns `tofp` matter. -/
theorem congr (h : Output bufsiz fs s i left printed) (hdata : fs'.data i = fs.data i)
    (htofp : s'.tofp = s.tofp) (hwritten : s'.written = s.written) (hbuf : s'.buf = s.buf) :
    Output bufsiz fs' s' i left printed := by
  refine ⟨htofp.trans h.tofp, ?_, ?_, ?_, ?_⟩
  · rw [hwritten]
    exact h.written_le
  · rw [hdata, hwritten]
    exact h.data
  · rw [hbuf, hwritten]
    exact h.buf
  · rw [hwritten]
    exact h.dvd

theorem print (h : Output bufsiz fs s i left printed) (text : List UInt8) :
    Output bufsiz fs (s.print text) i left (printed ++ text) where
  tofp := h.tofp
  written_le := by
    rw [List.length_append]
    exact Nat.le_add_right_of_le h.written_le
  data := by
    show fs.data i = (printed ++ text).take s.written ++ left.drop s.written
    rw [List.take_append_of_le_length h.written_le]
    exact h.data
  buf := by
    show s.buf ++ text = (printed ++ text).drop s.written
    rw [h.buf, List.drop_append_of_le_length h.written_le]
  dvd := h.dvd

/-- What a write of the first bytes of the buffer does to the inode. -/
theorem data_flush (h : Output bufsiz fs s i left printed) (n : ℕ) :
    (flush n fs s).1.data i =
      printed.take (s.written + n) ++ left.drop (s.written + (s.buf.take n).length) := by
  have hlen : (printed.take s.written).length = s.written :=
    List.length_take_of_le h.written_le
  have hdone : printed.take s.written ++ s.buf.take n = printed.take (s.written + n) := by
    rw [h.buf, List.take_add]
  have hdata : (flush n fs s).1.data i = overwrite (fs.data i) s.written (s.buf.take n) := by
    simp [flush, h.tofp, FileSystem.write]
  -- the write goes on where the last one left off
  have happ := overwrite_append left (printed.take s.written) (s.buf.take n)
  rw [hlen, hdone] at happ
  rw [hdata, h.data, happ, ← hdone, List.length_append, hlen]

theorem flush (h : Output bufsiz fs s i left printed) (hfull : bufsiz ≤ s.buf.length) :
    Output bufsiz (flush bufsiz fs s).1 (flush bufsiz fs s).2 i left printed := by
  have htake : (s.buf.take bufsiz).length = bufsiz := List.length_take_of_le hfull
  have hdata := h.data_flush bufsiz
  rw [htake] at hdata
  have hstate : (I2util.flush bufsiz fs s).2 =
      { s with written := s.written + bufsiz, buf := s.buf.drop bufsiz } := by
    simp [I2util.flush, h.tofp, htake]
  rw [hstate]
  have hlen := h.written_le
  have hbuflen : s.buf.length = printed.length - s.written := by
    rw [h.buf, List.length_drop]
  refine ⟨h.tofp, ?_, hdata, ?_, Nat.dvd_add h.dvd (Nat.dvd_refl bufsiz)⟩
  · show s.written + bufsiz ≤ printed.length
    omega
  · show s.buf.drop bufsiz = printed.drop (s.written + bufsiz)
    rw [h.buf, List.drop_drop]

/-- When `tofp` is closed everything is in the inode, before what is left of its old
bytes. -/
theorem data_close (h : Output bufsiz fs s i left printed) :
    (I2util.flush s.buf.length fs s).1.data i = printed ++ left.drop printed.length := by
  have hbuflen : s.buf.length = printed.length - s.written := by
    rw [h.buf, List.length_drop]
  have hall : s.written + s.buf.length = printed.length := by
    have hle := h.written_le
    omega
  rw [h.data_flush, List.take_length, hall, List.take_length]

end Output

/-! ### Reading -/

section Read

omit [DecidableEq P]

variable {F : Format} {id : List UInt8} {fs : Files P} {s : Proc}

theorem readStep_none (h : s.fromfp = none) : readStep F id fs s = ({ s with rc := 0 }, true) := by
  rw [readStep, h]

/-- Where a stream stands after a part of it has been read. -/
theorem drop_consumed {text rest : List UInt8} {pos : ℕ} (h : rest <:+ text.drop pos) :
    text.drop (pos + ((text.drop pos).length - rest.length)) = rest := by
  rw [← List.drop_drop]
  exact (List.suffix_iff_eq_drop.mp h).symm

theorem readStep_copy {i : ℕ} {text : List UInt8} {st : ReadState} (h : s.fromfp = some i)
    (htext : fs.data i = text)
    (hbody : readRecords.body (F.judge (some id)) ⟨s.rc, text.drop s.pos, []⟩ = .inl st) :
    ∃ pos, readStep F id fs s = ({ s with pos := pos, rc := st.rc }.print st.out, false) ∧
      text.drop pos = st.fp ∧ (text.drop pos).length < (text.drop s.pos).length := by
  subst htext
  have hsuffix := readRecords.body_suffix.1 st hbody
  have hlt : st.fp.length < ((fs.data i).drop s.pos).length :=
    readRecords.body_decreases _ _ hbody
  refine ⟨_, ?_, drop_consumed hsuffix, ?_⟩
  · rw [readStep, h]
    simp only [hbody]
  · rwa [drop_consumed hsuffix]

theorem readStep_return {i : ℕ} {text : List UInt8} {r : FileRead (List UInt8 × List UInt8)}
    (h : s.fromfp = some i) (htext : fs.data i = text)
    (hbody : readRecords.body (F.judge (some id)) ⟨s.rc, text.drop s.pos, []⟩ = .inr r) :
    ∃ pos, readStep F id fs s = ({ s with pos := pos, rc := r.rc }.print r.out, true) ∧
      text.drop pos = r.rest := by
  subst htext
  refine ⟨_, ?_, drop_consumed (readRecords.body_suffix.2 r hbody)⟩
  rw [readStep, h]
  simp only [hbody]

end Read

/-! ### A process at work -/

/-- The value of the new record; `none` when it is deleted. -/
def Args.value (a : Args) : Option (List UInt8) := if a.doDelete = true then none else a.passphrase

/-- What is left of the update at a point of the program, before the file is renamed or
the process has failed: the exit status and, with `printed`, all that is printed. `fp` is
what is left of the old file. -/
def todo (F : Format) (a : Args) (rc : ℤ) (fp : Option (List UInt8)) (printed : List UInt8) :
    Phase → Option (ℕ × List UInt8)
  | .firstPass => F.updateFrom fp rc a.idname a.value printed
  | .writeRecord =>
      if a.doDelete = true then F.copyRest fp rc a.idname printed
      else F.finishUpdate fp rc a.idname a.passphrase printed
  | .secondPass => F.copyRest fp rc a.idname printed
  | .closeFrom => some (0, printed)
  | .rename => some (0, printed)
  | .exiting 1 => some (1, printed)
  | _ => none

/-- The process copies the file `old`, and printing `new` in all leads to the exit status
`status`. -/
structure Working (T : Tool) (bufsiz : ℕ) (a : Args) (old : Option (List UInt8)) (i : ℕ)
    (left : List UInt8) (status : ℕ) (new : List UInt8) (fs : Files P) (s : Proc) : Prop where
  lock : fs.dir T.lockfname = some i
  source : s.fromfp.map fs.data = old
  source_ne : s.fromfp ≠ some i
  /-- A record is only written when there is a value for it. -/
  value : a.doDelete = false → a.passphrase ≠ none
  pending : s.Pending
  output : ∃ printed, Output bufsiz fs s i left printed ∧
    todo T.format a s.rc (old.map fun text => text.drop s.pos) printed s.phase = some (status, new)

namespace Working

variable {T : Tool} {bufsiz : ℕ} {a : Args} {old : Option (List UInt8)} {i : ℕ}
  {left new : List UInt8} {status : ℕ} {fs : Files P} {s : Proc} {p : P}

omit [DecidableEq P] in
theorem goto {s' : Proc} {text : List UInt8} (h : Working T bufsiz a old i left status new fs s)
    (hfromfp : s'.fromfp = s.fromfp) (htofp : s'.tofp = s.tofp) (hwritten : s'.written = s.written)
    (hbuf : s'.buf = s.buf ++ text)
    (htodo : ∀ printed,
      todo T.format a s.rc (old.map fun text => text.drop s.pos) printed s.phase =
        some (status, new) →
      todo T.format a s'.rc (old.map fun text => text.drop s'.pos) (printed ++ text) s'.phase =
        some (status, new)) : Working T bufsiz a old i left status new fs s' := by
  obtain ⟨printed, hout, hleft⟩ := h.output
  refine ⟨h.lock, ?_, ?_, h.value, ?_, printed ++ text, ?_, htodo printed hleft⟩
  · rw [hfromfp]
    exact h.source
  · rw [hfromfp]
    exact h.source_ne
  · rw [Proc.Pending, hwritten, hbuf]
    exact h.pending.print text
  · exact (hout.print text).congr rfl htofp hwritten hbuf

omit [DecidableEq P] in
theorem fromfp_of_none (h : Working T bufsiz a none i left status new fs s) : s.fromfp = none := by
  simpa using h.source

omit [DecidableEq P] in
theorem fromfp_of_some {text : List UInt8}
    (h : Working T bufsiz a (some text) i left status new fs s) :
    ∃ j, s.fromfp = some j ∧ fs.data j = text := by
  simpa using h.source

omit [DecidableEq P] in
theorem readPass {phase : Phase} {next : ℤ → Phase}
    (h : Working T bufsiz a old i left status new fs s) (hphase : s.phase = phase)
    (hnone : ∀ rc printed, todo T.format a rc none printed phase =
      todo T.format a 0 none printed (next 0))
    (hsome : ∀ rc fp printed, todo T.format a rc (some fp) printed phase =
      match readRecords.body (T.format.judge (some a.idname)) ⟨rc, fp, []⟩ with
      | .inl st => todo T.format a st.rc (some st.fp) (printed ++ st.out) phase
      | .inr r => todo T.format a r.rc (some r.rest) (printed ++ r.out) (next r.rc)) :
    Working T bufsiz a old i left status new fs (T.readPass a next fs s) := by
  rw [Tool.readPass]
  cases old with
  | none =>
      rw [readStep_none h.fromfp_of_none]
      refine @goto _ _ _ _ _ _ _ _ _ _ _ _ [] h rfl rfl rfl (List.append_nil _).symm ?_
      intro printed hleft
      rw [hphase, Option.map_none, hnone] at hleft
      rw [List.append_nil]
      exact hleft
  | some text =>
      obtain ⟨j, hj, htext⟩ := h.fromfp_of_some
      cases hbody : readRecords.body (T.format.judge (some a.idname))
          ⟨s.rc, text.drop s.pos, []⟩ with
      | inl st =>
          obtain ⟨pos, hrun, hdrop, -⟩ := readStep_copy hj htext hbody
          rw [hrun]
          refine h.goto rfl rfl rfl rfl fun printed hleft => ?_
          rw [hphase, Option.map_some, hsome, hbody] at hleft
          dsimp only at hleft
          rw [← hdrop] at hleft
          show todo T.format a st.rc (some (text.drop pos)) (printed ++ st.out) s.phase = _
          rw [hphase]
          exact hleft
      | inr r =>
          obtain ⟨pos, hrun, hdrop⟩ := readStep_return hj htext hbody
          rw [hrun]
          refine h.goto rfl rfl rfl rfl fun printed hleft => ?_
          rw [hphase, Option.map_some, hsome, hbody] at hleft
          dsimp only at hleft
          rw [← hdrop] at hleft
          exact hleft

omit [DecidableEq P] in
theorem firstPass (h : Working T bufsiz a old i left status new fs s)
    (hphase : s.phase = .firstPass) :
    Working T bufsiz a old i left status new fs (T.readPass a (Tool.afterFirst a) fs s) := by
  -- the end of the pass
  have hend : ∀ rc fp printed, todo T.format a rc fp printed (Tool.afterFirst a rc) =
      if rc < 0 then some (1, printed)
      else T.format.finishUpdate fp rc a.idname a.value printed := by
    intro rc fp printed
    rw [Tool.afterFirst]
    split
    · rfl
    · cases hdel : a.doDelete with
      | false => simp [todo, hdel, Args.value]
      | true =>
          by_cases hzero : rc = 0 <;> simp [todo, hdel, Args.value, hzero, Format.finishUpdate]
  refine h.readPass hphase (fun rc printed => ?_) fun rc fp printed => ?_
  · rw [hend]
    simp [todo, Format.updateFrom, Format.read]
  · show T.format.updateFrom (some fp) rc a.idname a.value printed = _
    rw [Format.updateFrom_eq]
    cases readRecords.body (T.format.judge (some a.idname)) ⟨rc, fp, []⟩ with
    | inl st => rfl
    | inr r => exact (hend r.rc (some r.rest) (printed ++ r.out)).symm

omit [DecidableEq P] in
theorem secondPass (h : Working T bufsiz a old i left status new fs s)
    (hphase : s.phase = .secondPass) :
    Working T bufsiz a old i left status new fs (T.readPass a Tool.afterSecond fs s) := by
  have hend : ∀ rc fp printed, todo T.format a rc fp printed (Tool.afterSecond rc) =
      if rc ≠ 0 then some (1, printed) else some (0, printed) := by
    intro rc fp printed
    rw [Tool.afterSecond]
    split <;> rfl
  refine h.readPass hphase (fun rc printed => ?_) fun rc fp printed => ?_
  · rw [hend]
    simp [todo, Format.copyRest, Format.read]
  · show T.format.copyRest (some fp) rc a.idname printed = _
    rw [Format.copyRest_eq]
    cases readRecords.body (T.format.judge (some a.idname)) ⟨rc, fp, []⟩ with
    | inl st => rfl
    | inr r => exact (hend r.rc (some r.rest) (printed ++ r.out)).symm

omit [DecidableEq P] in
theorem writeRecord (h : Working T bufsiz a old i left status new fs s)
    (hphase : s.phase = .writeRecord) :
    Working T bufsiz a old i left status new fs (T.writeRecord a s) := by
  rw [Tool.writeRecord]
  cases hdel : a.doDelete with
  | true =>
      refine @goto _ _ _ _ _ _ _ _ _ _ _ _ [] h rfl rfl rfl (List.append_nil _).symm ?_
      intro printed hleft
      rw [hphase, todo, if_pos hdel] at hleft
      rw [List.append_nil]
      exact hleft
  | false =>
      cases hpass : a.passphrase with
      | none => exact absurd hpass (h.value hdel)
      | some value =>
          have hleft : ∀ printed, todo T.format a s.rc (old.map fun text => text.drop s.pos) printed
              .writeRecord = if (T.format.write a.idname value).1 < 0 then
                  some (1, printed ++ (T.format.write a.idname value).2)
                else T.format.copyRest (old.map fun text => text.drop s.pos) s.rc a.idname
                  (printed ++ (T.format.write a.idname value).2) := by
            intro printed
            rw [todo, if_neg (by simp [hdel]), hpass]
            rfl
          rw [if_neg (by simp)]
          dsimp only
          split
          · rename_i hneg
            refine h.goto rfl rfl rfl rfl fun printed htodo => ?_
            rw [hphase, hleft, if_pos hneg] at htodo
            exact htodo
          · rename_i hneg
            refine h.goto rfl rfl rfl rfl fun printed htodo => ?_
            rw [hphase, hleft, if_neg hneg] at htodo
            exact htodo

end Working

end I2util
