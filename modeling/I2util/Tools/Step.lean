import I2util.Tools.Output
import Mathlib.Data.Prod.Lex

/-!
The steps of a process that copies the file, and the end of its run.

Each step keeps `Working`, or it is the rename, or the process exits. A step makes
the rest of the run smaller, so the process does come to its end.
-/

namespace I2util

variable {P : Type} [DecidableEq P]

/-- The lock file has got the name of the file; what is in the buffer of `tofp` has not
been written yet. -/
structure Renamed (bufsiz : ℕ) (a : Args) (i : ℕ) (left new : List UInt8) (fs : Files P)
    (s : Proc) : Prop where
  phase : s.phase = .closeTo
  fname : fs.dir a.fname = some i
  output : Output bufsiz fs s i left new
  pending : s.Pending
  short : s.buf.length ≤ bufsiz

def Phase.rank : Phase → ℕ
  | .firstPass => 6
  | .writeRecord => 5
  | .secondPass => 4
  | .closeFrom => 3
  | .rename => 2
  | .closeTo => 1
  | .exiting _ => 1
  | _ => 0

/-- What is left of a run: the phases, the lines to read, the bytes to write. -/
def Proc.size (old : Option (List UInt8)) (s : Proc) : ℕ × ℕ × ℕ :=
  (s.phase.rank, (old.elim [] fun text => text.drop s.pos).length, s.buf.length)

def Proc.Smaller (old : Option (List UInt8)) (s' s : Proc) : Prop :=
  Prod.Lex (· < ·) (Prod.Lex (· < ·) (· < ·)) (s'.size old) (s.size old)

theorem Proc.smaller_wf (old : Option (List UInt8)) : WellFounded (Proc.Smaller old) :=
  InvImage.wf (Proc.size old)
    (WellFounded.prod_lex Nat.lt_wfRel.wf (WellFounded.prod_lex Nat.lt_wfRel.wf Nat.lt_wfRel.wf))

inductive Next (T : Tool) (bufsiz : ℕ) (a : Args) (old : Option (List UInt8)) (i : ℕ)
    (left : List UInt8) (status : ℕ) (new : List UInt8) (fs : Files P) (s : Proc) (fs' : Files P)
    (s' : Proc) : Prop
  | working (h : Working T bufsiz a old i left status new fs' s') (hdir : fs'.dir = fs.dir)
      (hdata : ∀ j, j ≠ i → fs'.data j = fs.data j) (howner : fs'.owner i = fs.owner i)
      (hlt : s'.Smaller old s)
  | renamed (h : Renamed bufsiz a i left new fs' s') (hstatus : status = 0)
      (hdir : fs'.dir = Function.update (Function.update fs.dir T.lockfname none) a.fname (some i))
      (hdata : fs'.data = fs.data)
  | exited (hstatus : status = 1) (hphase : s'.phase = .exited status) (hdir : fs'.dir = fs.dir)
      (hnew : fs'.data i = new ++ left.drop new.length)
      (hdata : ∀ j, j ≠ i → fs'.data j = fs.data j)

omit [DecidableEq P] in
theorem smaller_readPass {T : Tool} {a : Args} {old : Option (List UInt8)} {next : ℤ → Phase}
    {fs : Files P} {s : Proc} (hsource : s.fromfp.map fs.data = old)
    (hnext : ∀ rc, (next rc).rank < s.phase.rank) :
    (T.readPass a next fs s).Smaller old s := by
  rw [Tool.readPass]
  cases hfrom : s.fromfp with
  | none =>
      rw [readStep_none hfrom]
      exact .left _ _ (hnext 0)
  | some j =>
      rw [hfrom, Option.map_some] at hsource
      subst hsource
      cases hbody : readRecords.body (T.format.judge (some a.idname))
          ⟨s.rc, (fs.data j).drop s.pos, []⟩ with
      | inl st =>
          obtain ⟨pos, hrun, -, hlt⟩ := readStep_copy hfrom rfl hbody
          rw [hrun]
          exact .right _ (.left _ _ hlt)
      | inr r =>
          obtain ⟨pos, hrun, -⟩ := readStep_return hfrom rfl hbody
          rw [hrun]
          exact .left _ _ (hnext r.rc)

theorem rank_writeRecord (T : Tool) (a : Args) (s : Proc) :
    (T.writeRecord a s).phase.rank < Phase.writeRecord.rank := by
  rw [Tool.writeRecord]
  split
  · simp [Phase.rank]
  · split
    · simp [Phase.rank]
    · dsimp only
      split <;> simp [Phase.rank]

namespace Working

variable {T : Tool} {bufsiz : ℕ} {a : Args} {old : Option (List UInt8)} {i : ℕ}
  {left new : List UInt8} {status : ℕ} {fs : Files P} {s : Proc} {p : P}

omit [DecidableEq P] in
/-- Names and bytes are all that matters. -/
theorem congr {fs' : Files P} (h : Working T bufsiz a old i left status new fs s)
    (hdir : fs'.dir = fs.dir) (hdata : fs'.data = fs.data) :
    Working T bufsiz a old i left status new fs' s := by
  obtain ⟨printed, hout, htodo⟩ := h.output
  refine ⟨?_, ?_, h.source_ne, h.value, h.pending, printed,
    hout.congr (congrFun hdata i) rfl rfl rfl, htodo⟩
  · rw [hdir]
    exact h.lock
  · rw [hdata]
    exact h.source

omit [DecidableEq P] in
/-- A buffer that has overrun is written out. -/
theorem next_flush (h : Working T bufsiz a old i left status new fs s) (hpos : 0 < bufsiz)
    (hfull : bufsiz < s.buf.length) :
    Next T bufsiz a old i left status new fs s (flush bufsiz fs s).1 (flush bufsiz fs s).2 := by
  obtain ⟨printed, hout, htodo⟩ := h.output
  have hdata : ∀ j, j ≠ i → (flush bufsiz fs s).1.data j = fs.data j := by
    intro j hj
    apply flush_data_of_ne
    rw [hout.tofp]
    exact fun heq => hj (Option.some.inj heq).symm
  refine .working ⟨?_, ?_, ?_, h.value, .flush fs hfull, printed, hout.flush hfull.le, ?_⟩
    (flush_dir ..) hdata (by rw [flush_owner]) ?_
  · rw [flush_dir]
    exact h.lock
  · rw [flush_fromfp, ← h.source]
    cases hfrom : s.fromfp with
    | none => rfl
    | some j =>
        have hj : j ≠ i := by
          rintro rfl
          exact h.source_ne hfrom
        rw [Option.map_some, Option.map_some, hdata j hj]
  · rw [flush_fromfp]
    exact h.source_ne
  · rw [flush_phase, flush_rc, flush_pos]
    exact htodo
  · have hbuf : (flush bufsiz fs s).2.buf = s.buf.drop bufsiz := by
      rw [flush, hout.tofp]
    have hlt : (s.buf.drop bufsiz).length < s.buf.length := by
      rw [List.length_drop]
      omega
    rw [Proc.Smaller, Proc.size, Proc.size, flush_phase, flush_pos, hbuf]
    exact .right _ (.right _ hlt)

theorem next_finish {st : ℕ} (h : Working T bufsiz a old i left status new fs s)
    (hphase : s.phase = .exiting st) :
    Next T bufsiz a old i left status new fs s (Tool.finish p st fs s).1
      (Tool.finish p st fs s).2 := by
  obtain ⟨printed, hout, htodo⟩ := h.output
  rw [hphase] at htodo
  have hst : st = 1 := by
    by_contra hne
    rw [todo] at htodo
    · cases htodo
    all_goals simp [hne]
  subst hst
  obtain ⟨rfl, rfl⟩ := Prod.mk.inj (Option.some.inj htodo)
  refine .exited rfl rfl (flush_dir ..) hout.data_close fun j hj => ?_
  apply flush_data_of_ne
  rw [hout.tofp]
  exact fun heq => hj (Option.some.inj heq).symm

/-- The lock is on another file, and closing this one does not give it up. -/
theorem next_closeFrom (h : Working T bufsiz a old i left status new fs s)
    (hphase : s.phase = .closeFrom) :
    Next T bufsiz a old i left status new fs s (s.fromfp.elim fs fun j => fs.close p j)
      (s.goto .rename) := by
  have hgo : Working T bufsiz a old i left status new fs (s.goto .rename) := by
    refine @goto _ _ _ _ _ _ _ _ _ _ _ _ [] h rfl rfl rfl (List.append_nil _).symm ?_
    intro printed hleft
    rw [hphase] at hleft
    rw [List.append_nil]
    exact hleft
  have hlt : (s.goto .rename).Smaller old s := .left _ _ (by simp [hphase, Phase.rank])
  cases hfrom : s.fromfp with
  | none => exact .working hgo rfl (fun _ _ => rfl) rfl hlt
  | some j =>
      have hj : i ≠ j := by
        rintro rfl
        exact h.source_ne hfrom
      refine .working (hgo.congr (fs.close_dir p j) (fs.close_data p j)) (fs.close_dir p j)
        (fun k _ => ?_) (FileSystem.close_owner_of_ne hj) hlt
      show (fs.close p j).data k = _
      rw [FileSystem.close_data]

omit [DecidableEq P] in
theorem next_rename (h : Working T bufsiz a old i left status new fs s)
    (hphase : s.phase = .rename) (hname : a.fname ≠ T.lockfname) (hshort : s.buf.length ≤ bufsiz) :
    Next T bufsiz a old i left status new fs s (fs.rename T.lockfname a.fname)
      (s.goto .closeTo) := by
  obtain ⟨printed, hout, htodo⟩ := h.output
  rw [hphase, todo] at htodo
  obtain ⟨rfl, rfl⟩ := Prod.mk.inj (Option.some.inj htodo)
  have hdir := FileSystem.rename_dir hname.symm h.lock
  have hdata := FileSystem.rename_data fs T.lockfname a.fname
  refine .renamed ⟨rfl, ?_, ?_, h.pending, hshort⟩ rfl hdir hdata
  · rw [hdir]
    exact Function.update_self ..
  · exact hout.congr (congrFun hdata i) rfl rfl rfl

theorem next_step (h : Working T bufsiz a old i left status new fs s) (hpos : 0 < bufsiz)
    (hname : a.fname ≠ T.lockfname) :
    Next T bufsiz a old i left status new fs s (T.step bufsiz a p fs s).1
      (T.step bufsiz a p fs s).2 := by
  obtain ⟨printed, -, htodo⟩ := h.output
  -- outside of the copying there is nothing left to do, so `todo` would be `none`
  have hexited : ¬s.phase.isExited = true := by
    intro hexited
    cases hphase : s.phase <;> rw [hphase] at hexited htodo <;> cases hexited
    cases htodo
  rw [Tool.step, if_neg hexited]
  split
  · rename_i hfull
    exact h.next_flush hpos hfull
  rename_i hshort
  rw [Tool.action]
  cases hphase : s.phase with
  | firstPass =>
      refine .working (h.firstPass hphase) rfl (fun _ _ => rfl) rfl
        (smaller_readPass h.source ?_)
      intro rc
      rw [hphase, Tool.afterFirst]
      split
      · decide
      · split <;> decide
  | writeRecord =>
      refine .working (h.writeRecord hphase) rfl (fun _ _ => rfl) rfl (.left _ _ ?_)
      rw [hphase]
      exact rank_writeRecord T a s
  | secondPass =>
      refine .working (h.secondPass hphase) rfl (fun _ _ => rfl) rfl
        (smaller_readPass h.source ?_)
      intro rc
      rw [hphase, Tool.afterSecond]
      split <;> decide
  | closeFrom => exact h.next_closeFrom hphase
  | rename => exact h.next_rename hphase hname (not_lt.mp hshort)
  | exiting st => exact h.next_finish hphase
  | _ =>
      rw [hphase, todo] at htodo
      · cases htodo
      all_goals simp

end Working

end I2util
