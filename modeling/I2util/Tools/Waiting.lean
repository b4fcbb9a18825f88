import I2util.Tools.Run

/-!
A process that has not begun to copy the file, beside another one.

`Early` are its states as long as neither has renamed the file, and `Later` are its
states when the other one has: it has opened the file before the rename or after it.
-/

namespace I2util

variable {P : Type} [DecidableEq P]

/-- What the opening of the lock file does to the files. -/
structure Opened (T : Tool) (fs fs' : Files P) : Prop where
  lock : ∀ i, fs.dir T.lockfname = some i → fs' = fs
  dir : ∀ n, n ≠ T.lockfname → fs'.dir n = fs.dir n
  data : ∀ n i, fs.dir n = some i → fs'.data i = fs.data i
  leftover : T.leftover fs' = T.leftover fs

inductive Early (T : Tool) (fname : Name) (fs : Files P) : Proc → Prop
  | start : Early T fname fs .start
  | openLock {k : Option ℕ} (h : k = none ∨ k = fs.dir fname) :
      Early T fname fs (.fresh .openLock k none)
  | setLock {k : Option ℕ} {i : ℕ} (h : k = none ∨ k = fs.dir fname)
      (hlock : fs.dir T.lockfname = some i) : Early T fname fs (.fresh .setLock k (some i))

/-- A process that has not begun to copy, when the other one has renamed the lock file `i`.
It has opened another file before, or it opens `i` and gets a new and empty lock file. -/
inductive Later (T : Tool) (i : ℕ) (fs : Files P) : Proc → Prop
  | start (h : fs.dir T.lockfname = none) : Later T i fs .start
  | staleOpenLock {k : Option ℕ} (h : k ≠ some i) : Later T i fs (.fresh .openLock k none)
  | staleSetLock {k : Option ℕ} {j : ℕ} (h : k ≠ some i) :
      Later T i fs (.fresh .setLock k (some j))
  | openLock (h : fs.dir T.lockfname = none) : Later T i fs (.fresh .openLock (some i) none)
  | ready {phase : Phase} {j : ℕ}
      (hphase : phase = .setLock ∨ phase = .prompt ∨ phase = .firstPass)
      (hlock : fs.dir T.lockfname = some j) (hempty : fs.data j = []) :
      Later T i fs (.fresh phase (some i) (some j))

section Opened

omit [DecidableEq P]

variable {T : Tool} {fs fs' : Files P}

theorem Opened.refl (T : Tool) (fs : Files P) : Opened T fs fs :=
  ⟨fun _ _ => rfl, fun _ _ => rfl, fun _ _ _ => rfl, rfl⟩

theorem opened_openCreate {i : ℕ} (h : (fs.openCreate T.lockfname).1 = some i) :
    Opened T fs (fs.openCreate T.lockfname).2 := by
  obtain ⟨hlock, hleft, hdir, hdata⟩ := FileSystem.openCreate_eq h
  refine ⟨fun j hj => (FileSystem.openCreate_of_some hj).1, hdir,
    fun n j hj => (hdata j (fs.isDir.lt n j hj)).1, ?_⟩
  rw [Tool.leftover, Tool.leftover, FileSystem.content, hlock, Option.map_some, hleft]
  rfl

theorem Early.opened {fname : Name} {s : Proc} (h : Early T fname fs s) (hopened : Opened T fs fs')
    (hname : fname ≠ T.lockfname) : Early T fname fs' s := by
  cases h with
  | start => exact .start
  | openLock hk =>
      rw [← hopened.dir fname hname] at hk
      exact .openLock hk
  | setLock hk hlock =>
      rw [hopened.lock _ hlock]
      exact .setLock hk hlock

theorem Early.congr {fname : Name} {s : Proc} (h : Early T fname fs s) (hdir : fs'.dir = fs.dir) :
    Early T fname fs' s := by
  cases h with
  | start => exact .start
  | openLock hk =>
      rw [← hdir] at hk
      exact .openLock hk
  | setLock hk hlock =>
      rw [← hdir] at hk hlock
      exact .setLock hk hlock

theorem Early.renamed {fname : Name} {s : Proc} {i : ℕ} (h : Early T fname fs s)
    (hname : fname ≠ T.lockfname) (hlock : fs.dir T.lockfname = some i)
    (hgone : fs'.dir T.lockfname = none) : Later T i fs' s := by
  have hk : ∀ k, k = none ∨ k = fs.dir fname → k ≠ some i := by
    rintro k (rfl | rfl) heq
    · cases heq
    · exact hname (fs.isDir.inj _ _ i heq hlock)
  cases h with
  | start => exact .start hgone
  | openLock h => exact .staleOpenLock (hk _ h)
  | setLock h _ => exact .staleSetLock (hk _ h)

/-- The other process writes to its own file. -/
theorem Later.congr {fname : Name} {s : Proc} {i : ℕ} (h : Later T i fs s)
    (hname : fname ≠ T.lockfname) (hfile : fs.dir fname = some i) (hdir : fs'.dir = fs.dir)
    (hdata : ∀ j, j ≠ i → fs'.data j = fs.data j) : Later T i fs' s := by
  cases h with
  | start h => exact .start (by rw [hdir]; exact h)
  | staleOpenLock h => exact .staleOpenLock h
  | staleSetLock h => exact .staleSetLock h
  | openLock h => exact .openLock (by rw [hdir]; exact h)
  | @ready phase j hphase hlock hempty =>
      have hj : j ≠ i := by
        rintro rfl
        exact hname (fs.isDir.inj _ _ j hfile hlock)
      refine .ready hphase ?_ ?_
      · rw [hdir]
        exact hlock
      · rw [hdata j hj]
        exact hempty

end Opened

section Step

variable {T : Tool} {bufsiz : ℕ} {a : Args} {p : P} {fs : Files P} {s : Proc}

/-- An operation before the copying fails, opens the lock file, or takes the lock. -/
theorem Early.step (T : Tool) (bufsiz : ℕ) (a : Args) (p : P) (h : Early T a.fname fs s) :
    (T.step bufsiz a p fs s).2.phase = .exiting 1 ∨
      Early T a.fname fs (T.step bufsiz a p fs s).2 ∧ (T.step bufsiz a p fs s).1 = fs ∨
      (∃ k i, (fs.openCreate T.lockfname).1 = some i ∧ (k = none ∨ k = fs.dir a.fname) ∧
        T.step bufsiz a p fs s = ((fs.openCreate T.lockfname).2, .fresh .setLock k (some i))) ∨
      ∃ k i fs₁, s = .fresh .setLock k (some i) ∧ fs.dir T.lockfname = some i ∧
        fs.setLock p i = some fs₁ ∧
        T.step bufsiz a p fs s = (fs₁, .fresh .prompt k (some i)) := by
  cases h with
  | start =>
      rcases step_start T bufsiz a p fs with ⟨k, hstep⟩ | ⟨-, -, hstep⟩
      · exact .inl (phase_of_exiting hstep)
      · right
        left
        rw [hstep]
        refine ⟨.openLock ?_, rfl⟩
        cases hk : fs.openFile a.fname with
        | none => exact .inl rfl
        | some k => exact .inr (dir_of_openFile hk).symm
  | @openLock k hk =>
      rcases step_openLock T bufsiz a p fs (k := k) with hstep | ⟨i, hlock, hstep⟩
      · exact .inl (phase_of_exiting hstep)
      · exact .inr (.inr (.inl ⟨k, i, hlock, hk, hstep⟩))
  | @setLock k i hk hlock =>
      rcases step_setLock T bufsiz a p fs (k := k) (i := i) with hstep | ⟨fs₁, hset, hstep⟩
      · exact .inl (phase_of_exiting hstep)
      · exact .inr (.inr (.inr ⟨k, i, fs₁, rfl, hlock, hset, hstep⟩))

omit [DecidableEq P] in
/-- The lock file of the other process keeps its new name and its contents. -/
theorem openCreate_keeps {i j : ℕ} (hname : a.fname ≠ T.lockfname)
    (hfile : fs.dir a.fname = some i) (h : (fs.openCreate T.lockfname).1 = some j) :
    (fs.openCreate T.lockfname).2.dir a.fname = some i ∧
      (fs.openCreate T.lockfname).2.data i = fs.data i := by
  have hopened := opened_openCreate h
  exact ⟨(hopened.dir _ hname).trans hfile, hopened.data _ _ hfile⟩

/-- A process with its own lock file takes the lock or goes on to the copying. -/
theorem Later.step_ready {i j : ℕ} {phase : Phase}
    (hready : phase = .setLock ∨ phase = .prompt) (hlock : fs.dir T.lockfname = some j)
    (hempty : fs.data j = []) (hfile : fs.dir a.fname = some i)
    (hs : s = .fresh phase (some i) (some j)) :
    (T.step bufsiz a p fs s).2.phase = .exiting 1 ∨
      Later T i (T.step bufsiz a p fs s).1 (T.step bufsiz a p fs s).2 ∧
        (T.step bufsiz a p fs s).1.dir a.fname = some i ∧
        (T.step bufsiz a p fs s).1.data i = fs.data i := by
  subst hs
  rcases hready with rfl | rfl
  · rcases step_setLock T bufsiz a p fs (k := some i) (i := j) with hstep | ⟨fs₁, hset, hstep⟩
    · exact .inl (phase_of_exiting hstep)
    · right
      obtain ⟨hdir, hdata, -⟩ := FileSystem.setLock_eq hset
      rw [hstep]
      rw [← hdir] at hlock hfile
      rw [← hdata] at hempty ⊢
      exact ⟨.ready (.inr (.inl rfl)) hlock hempty, hfile, rfl⟩
  · rcases step_prompt T bufsiz a p fs (k := some i) (i := some j) with hstep | ⟨-, hstep⟩
    · exact .inl (phase_of_exiting hstep)
    · right
      rw [hstep]
      exact ⟨.ready (.inr (.inr rfl)) hlock hempty, hfile, rfl⟩

/-- An operation before the copying, when the other process has renamed its file. A process
that does not get the lock for a file that is no longer under the name stays as it is. -/
theorem Later.step {i : ℕ} (T : Tool) (bufsiz : ℕ) (a : Args) (p : P)
    (hname : a.fname ≠ T.lockfname) (h : Later T i fs s) (hfile : fs.dir a.fname = some i)
    (hcurrent : ∀ k j fs₁, s = .fresh .setLock k (some j) → fs.setLock p j = some fs₁ →
      fs.dir a.fname = k) (hphase : s.phase ≠ .firstPass) :
    (T.step bufsiz a p fs s).2.phase = .exiting 1 ∨
      Later T i (T.step bufsiz a p fs s).1 (T.step bufsiz a p fs s).2 ∧
        (T.step bufsiz a p fs s).1.dir a.fname = some i ∧
        (T.step bufsiz a p fs s).1.data i = fs.data i := by
  cases h with
  | start h =>
      rcases step_start T bufsiz a p fs with ⟨k, hstep⟩ | ⟨-, -, hstep⟩
      · exact .inl (phase_of_exiting hstep)
      · right
        rw [hstep]
        refine ⟨?_, hfile, rfl⟩
        rcases eq_or_ne (fs.openFile a.fname) (some i) with hk | hk
        · rw [hk]
          exact .openLock h
        · exact .staleOpenLock hk
  | @staleOpenLock k hk =>
      rcases step_openLock T bufsiz a p fs (k := k) with hstep | ⟨j, hlock, hstep⟩
      · exact .inl (phase_of_exiting hstep)
      · right
        rw [hstep]
        exact ⟨.staleSetLock hk, openCreate_keeps hname hfile hlock⟩
  | @staleSetLock k j hk =>
      rcases step_setLock T bufsiz a p fs (k := k) (i := j) with hstep | ⟨fs₁, hset, -⟩
      · exact .inl (phase_of_exiting hstep)
      · -- it gets the lock for a file that is not under the name any more
        have hsame := hcurrent k j fs₁ rfl hset
        rw [hfile] at hsame
        exact absurd hsame.symm hk
  | openLock h =>
      rcases step_openLock T bufsiz a p fs (k := some i) with hstep | ⟨j, hlock, hstep⟩
      · exact .inl (phase_of_exiting hstep)
      · right
        rw [hstep]
        -- the lock file was renamed, so a new one is created
        obtain ⟨hdirlock, hleft, -⟩ := FileSystem.openCreate_eq hlock
        refine ⟨.ready (.inl rfl) hdirlock ?_, openCreate_keeps hname hfile hlock⟩
        rw [hleft, FileSystem.content, h]
        rfl
  | @ready phase j hready hlock hempty =>
      rcases hready with hset | hprompt | rfl
      · exact Later.step_ready (.inl hset) hlock hempty hfile rfl
      · exact Later.step_ready (.inr hprompt) hlock hempty hfile rfl
      · exact absurd rfl hphase

end Step

end I2util
