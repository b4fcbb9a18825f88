import I2util.Tools.Run

/-!
What the name of the file shows during a run.

The file is renamed before `tofp` is closed. So there is a moment at which the name
refers to what has been written so far: the buffers that have filled up, and what was left
of the lock file behind them.
-/

namespace I2util

variable {P : Type} [DecidableEq P]

variable {T : Tool} {bufsiz : ℕ} {a : Args} {p : P} {fs fs' : Files P} {s : Proc}

namespace Tool

variable (T) (bufsiz) (a) (p)

/-- The number of bytes that are written before the rename: as many buffers as fill up
and are followed by a byte. -/
def writtenLength (fs : Files P) : ℕ := bufsiz * (((T.newText a fs).length - 1) / bufsiz)

def shown (fs : Files P) : List UInt8 :=
  (T.newText a fs).take (T.writtenLength bufsiz a fs) ++
    (T.leftover fs).drop (T.writtenLength bufsiz a fs)

/-- At any time of the run the name shows the file as it was, or as the run leaves it. -/
def Atomic (fs fs' : Files P) : Prop :=
  ∀ n, (T.run bufsiz a p n fs .start).1.content a.fname = fs.content a.fname ∨
    (T.run bufsiz a p n fs .start).1.content a.fname = fs'.content a.fname

/-- The rest of the new text, which is in the buffer at the rename, stands in the lock file
already; or what has been written is the old file. -/
def Settled (fs : Files P) : Prop :=
  (T.newText a fs).drop (T.writtenLength bufsiz a fs) <+:
      (T.leftover fs).drop (T.writtenLength bufsiz a fs) ∨
    fs.content a.fname = some (T.shown bufsiz a fs)

end Tool

/-! ### Runs that reach the rename -/

def Phase.IsRenamed (phase : Phase) : Prop := phase = .closeTo ∨ phase = .exited 0

theorem isRenamed_step (h : s.phase.IsRenamed) :
    (T.step bufsiz a p fs s).2.phase.IsRenamed := by
  rw [Tool.step]
  split
  · exact h
  · rename_i hexited
    rcases h with h | h
    · split
      · rw [flush_phase]
        exact .inl h
      · rw [Tool.action, h]
        exact .inr rfl
    · rw [h] at hexited
      exact absurd rfl hexited

theorem isRenamed_run (h : s.phase.IsRenamed) (n : ℕ) :
    (T.run bufsiz a p n fs s).2.phase.IsRenamed := by
  induction n generalizing fs s with
  | zero => exact h
  | succ n ih =>
      rw [run_succ]
      exact ih (isRenamed_step h)

theorem exits_of_isRenamed (hpos : 0 < bufsiz) (hname : a.fname ≠ T.lockfname) {n : ℕ}
    (h : (T.run bufsiz a p n fs .start).2.phase.IsRenamed) :
    ∃ fs', T.Exits bufsiz a p fs .start 0 fs' := by
  obtain ⟨status, fs', hexits⟩ := exits_start T a p fs hpos hname
  obtain ⟨m, s', hrun, hphase⟩ := hexits
  have hend : (T.run bufsiz a p (m + n) fs .start).2.phase = .exited status := by
    rw [run_add, hrun, run_exited hphase]
    exact hphase
  have hrenamed : (T.run bufsiz a p (n + m) fs .start).2.phase.IsRenamed := by
    rw [run_add]
    exact isRenamed_run h m
  rw [Nat.add_comm, hend] at hrenamed
  rcases hrenamed with hno | hzero
  · cases hno
  · rw [Phase.exited.inj hzero] at hphase
    exact ⟨fs', m, s', hrun, hphase⟩

/-! ### What the name shows -/

theorem content_setLock {i : ℕ} {n : Name} (h : fs.setLock p i = some fs') :
    fs'.content n = fs.content n := by
  obtain ⟨hdir, hdata, -⟩ := FileSystem.setLock_eq h
  rw [FileSystem.content, FileSystem.content, hdir, hdata]

/-- The name shows the old file up to the rename, then what has been written, and in the
end the new file. -/
theorem Tool.Exits.shows (hpos : 0 < bufsiz) (hname : a.fname ≠ T.lockfname)
    (h : T.Exits bufsiz a p fs .start 0 fs') :
    ∃ n, (∀ m < n, (T.run bufsiz a p m fs .start).1.content a.fname = fs.content a.fname) ∧
      (T.run bufsiz a p n fs .start).1.content a.fname = some (T.shown bufsiz a fs) ∧
      ∀ m, n < m → (T.run bufsiz a p m fs .start).1.content a.fname = fs'.content a.fname := by
  obtain ⟨haccepts, i, fs₁, hlock, hset⟩ := h.accepts
  obtain ⟨h₁, h₂, h₃, h₄⟩ := run_fresh haccepts hlock hset
  obtain ⟨hworking, hsame⟩ :=
    working_fresh bufsiz haccepts hlock hset hname (h.update hpos hname)
  obtain ⟨n, fs₂, s₂, hrun, hrenamed, hbefore⟩ := hworking.renamed (p := p) hpos hname
  obtain ⟨fs₃, s₃, hrun', hphase, -⟩ := hrenamed.exits (T := T) (p := p)
  have hrename : T.run bufsiz a p (4 + n) fs .start = (fs₂, s₂) := by
    rw [run_add, h₄, hrun]
  have hclose : T.run bufsiz a p (4 + n + 1) fs .start = (fs₃, s₃) := by
    rw [run_add, hrename, hrun']
  obtain ⟨-, rfl⟩ := h.unique ⟨_, s₃, hclose, hphase⟩
  refine ⟨4 + n, fun m hm => ?_, ?_, fun m hm => ?_⟩
  · obtain hlt | ⟨k, rfl⟩ : m < 4 ∨ ∃ k, m = 4 + k := by
      rcases Nat.lt_or_ge m 4 with hlt | hge
      · exact .inl hlt
      · exact .inr (Nat.exists_eq_add_of_le hge)
    · -- the files are opened and locked
      obtain rfl | rfl | rfl | rfl : m = 0 ∨ m = 1 ∨ m = 2 ∨ m = 3 := by omega
      · rfl
      · rw [h₁]
      · rw [h₂, ← hsame, content_setLock hset]
      · rw [h₃, hsame]
    · rw [run_add, h₄, hbefore k (by omega), hsame]
  · rw [hrename, hrenamed.content, hrenamed.written_eq hpos]
    rfl
  · obtain ⟨k, rfl⟩ := Nat.exists_eq_add_of_le (Nat.succ_le_of_lt hm)
    rw [run_add, hclose, run_exited hphase]

omit [DecidableEq P] in
/-- When what is shown after the rename is the new file. -/
theorem shown_eq_iff :
    T.shown bufsiz a fs = T.newText a fs ++ (T.leftover fs).drop (T.newText a fs).length ↔
      (T.newText a fs).drop (T.writtenLength bufsiz a fs) <+:
        (T.leftover fs).drop (T.writtenLength bufsiz a fs) := by
  have hle : T.writtenLength bufsiz a fs ≤ (T.newText a fs).length :=
    (Nat.mul_div_le _ _).trans (Nat.sub_le _ _)
  rw [Tool.shown]
  generalize T.writtenLength bufsiz a fs = k at hle
  generalize T.newText a fs = new at hle
  have hrest : ((T.leftover fs).drop k).drop (new.drop k).length =
      (T.leftover fs).drop new.length := by
    rw [List.drop_drop, List.length_drop, Nat.add_sub_cancel' hle]
  calc
    new.take k ++ (T.leftover fs).drop k = new ++ (T.leftover fs).drop new.length ↔
        new.take k ++ (T.leftover fs).drop k =
          new.take k ++ (new.drop k ++ (T.leftover fs).drop new.length) := by
      rw [← List.append_assoc, List.take_append_drop]
    _ ↔ new.drop k ++ ((T.leftover fs).drop k).drop (new.drop k).length =
        (T.leftover fs).drop k := by
      rw [List.append_cancel_left_eq, hrest, eq_comm]
    _ ↔ new.drop k <+: (T.leftover fs).drop k := List.prefix_iff_eq_append.symm

/-- In a run that reaches its rename the name shows the old file or the new one at any
time, if and only if what has been written by then is one of them. -/
theorem atomic_iff (hpos : 0 < bufsiz) (hname : a.fname ≠ T.lockfname)
    (hreach : ∃ n, (T.run bufsiz a p n fs .start).2.phase = .closeTo) :
    ∃ fs', T.Exits bufsiz a p fs .start 0 fs' ∧
      (T.Atomic bufsiz a p fs fs' ↔ T.Settled bufsiz a fs) := by
  obtain ⟨n, hn⟩ := hreach
  have hrenamed : (T.run bufsiz a p n fs .start).2.phase.IsRenamed := .inl hn
  obtain ⟨fs', hexits⟩ := exits_of_isRenamed hpos hname hrenamed
  refine ⟨fs', hexits, ?_⟩
  obtain ⟨n, hbefore, hshown, hafter⟩ := hexits.shows hpos hname
  have hnew : fs'.content a.fname = some (T.shown bufsiz a fs) ↔
      (T.newText a fs).drop (T.writtenLength bufsiz a fs) <+:
        (T.leftover fs).drop (T.writtenLength bufsiz a fs) := by
    rw [hexits.content hpos hname, Option.some_inj, eq_comm]
    exact shown_eq_iff
  constructor
  · intro hatomic
    rcases hatomic n with hold | hfinal
    · rw [hshown] at hold
      exact .inr hold.symm
    · rw [hshown] at hfinal
      exact .inl (hnew.mp hfinal.symm)
  · intro hsettled m
    rcases Nat.lt_trichotomy m n with hlt | rfl | hgt
    · exact .inl (hbefore m hlt)
    · rw [hshown]
      rcases hsettled with hprefix | hold
      · exact .inr (hnew.mpr hprefix).symm
      · exact .inl hold.symm
    · exact .inr (hafter m hgt)

/-! ### An empty file -/

def oneComment : Files Unit := .single (ascii "pf") (ascii "# pf\n")

def additionOfA : Args := .addition (ascii "pf") (ascii "a") (ascii "b")

def additionRun (n : ℕ) : Files Unit × Proc :=
  pfstore.run 4096 additionOfA () n oneComment .start

theorem atomic_iff_addition : ∃ fs',
    pfstore.Exits 4096 additionOfA () oneComment .start 0 fs' ∧
      (pfstore.Atomic 4096 additionOfA () oneComment fs' ↔
        pfstore.Settled 4096 additionOfA oneComment) :=
  atomic_iff (Nat.zero_lt_of_lt (by decide : 1 < 4096)) (by decide) ⟨9, rfl⟩

/-- Between the rename and the end of the run the file is empty. -/
theorem not_atomic_addition : ∃ fs',
    pfstore.Exits 4096 additionOfA () oneComment .start 0 fs' ∧
      (additionRun 9).1.content (ascii "pf") = some [] ∧
      ¬pfstore.Atomic 4096 additionOfA () oneComment fs' := by
  have hempty : (additionRun 9).1.content (ascii "pf") = some [] := rfl
  refine ⟨(additionRun 10).1, ⟨10, _, rfl, rfl⟩, hempty, fun hatomic => ?_⟩
  rcases hatomic 9 with hold | hnew
  · have hsame : oneComment.content (ascii "pf") = some [] := hold.symm.trans hempty
    exact absurd hsame (by decide)
  · have hsame : (additionRun 10).1.content (ascii "pf") = some [] := hnew.symm.trans hempty
    exact absurd hsame (by decide)

end I2util
