import I2util.Tools.Step

/-!
A whole run of one process, with no other in between.

A run that is to succeed opens both files, takes the lock, and then copies the file.
It ends with the new text before what was left of the lock file.
-/

namespace I2util

variable {P : Type} [DecidableEq P]

namespace Tool

variable (T : Tool) (bufsiz : ℕ) (a : Args) (p : P)

def run (n : ℕ) (fs : Files P) (s : Proc) : Files P × Proc :=
  (fun x => T.step bufsiz a p x.1 x.2)^[n] (fs, s)

/-- The process comes to its end with this exit status and leaves these files. -/
def Exits (fs : Files P) (s : Proc) (status : ℕ) (fs' : Files P) : Prop :=
  ∃ n s', T.run bufsiz a p n fs s = (fs', s') ∧ s'.phase = .exited status

inductive Runs : Files P → List (Args × ℕ) → Files P → Prop
  | nil (fs : Files P) : Runs fs [] fs
  | cons {fs fs' fs'' : Files P} {a : Args} {status : ℕ} {rest : List (Args × ℕ)}
      (h : T.Exits bufsiz a p fs .start status fs') (hrest : Runs fs' rest fs'') :
      Runs fs ((a, status) :: rest) fs''

structure Accepts (fs : Files P) : Prop where
  short : ¬∃ n ∈ T.maxIdentity, n < a.idname.length
  opened : afterOpen a (fs.openFile a.fname) = .openLock
  prompted : T.afterPrompt a = .firstPass

end Tool

theorem afterOpen_cases (a : Args) (fromfp : Option ℕ) :
    Tool.afterOpen a fromfp = .openLock ∨ Tool.afterOpen a fromfp = .exiting 1 := by
  rw [Tool.afterOpen]
  split
  · exact .inr rfl
  · split
    · exact .inr rfl
    · exact .inl rfl

theorem afterPrompt_cases (T : Tool) (a : Args) :
    T.afterPrompt a = .firstPass ∨ T.afterPrompt a = .exiting 1 := by
  rw [Tool.afterPrompt]
  split
  · exact .inl rfl
  · split
    · exact .inr rfl
    · split
      · exact .inr rfl
      · exact .inl rfl

section Runs

variable {T : Tool} {bufsiz : ℕ} {a : Args} {p : P} {fs fs' : Files P} {s : Proc}

open Tool

theorem run_succ (n : ℕ) (fs : Files P) (s : Proc) : T.run bufsiz a p (n + 1) fs s =
    T.run bufsiz a p n (T.step bufsiz a p fs s).1 (T.step bufsiz a p fs s).2 :=
  Function.iterate_succ_apply _ n (fs, s)

theorem run_add (n m : ℕ) (fs : Files P) (s : Proc) : T.run bufsiz a p (n + m) fs s =
    T.run bufsiz a p m (T.run bufsiz a p n fs s).1 (T.run bufsiz a p n fs s).2 := by
  rw [Nat.add_comm]
  exact Function.iterate_add_apply _ m n (fs, s)

theorem run_exited {status : ℕ} (h : s.phase = .exited status) (n : ℕ) :
    T.run bufsiz a p n fs s = (fs, s) := by
  induction n with
  | zero => rfl
  | succ n ih =>
      have hstep : T.step bufsiz a p fs s = (fs, s) := by
        rw [Tool.step, h]
        rfl
      rw [run_succ, hstep, ih]

theorem exits_of_run {n status : ℕ}
    (h : T.Exits bufsiz a p (T.run bufsiz a p n fs s).1 (T.run bufsiz a p n fs s).2 status fs') :
    T.Exits bufsiz a p fs s status fs' := by
  obtain ⟨m, s', hrun, hphase⟩ := h
  exact ⟨n + m, s', by rw [run_add, hrun], hphase⟩

theorem Tool.Exits.unique {status status' : ℕ} {fs'' : Files P}
    (h : T.Exits bufsiz a p fs s status fs') (h' : T.Exits bufsiz a p fs s status' fs'') :
    status = status' ∧ fs' = fs'' := by
  obtain ⟨n, s', hrun, hphase⟩ := h
  obtain ⟨m, s'', hrun', hphase'⟩ := h'
  have hsame : (fs', s') = (fs'', s'') := by
    rcases Nat.le_total n m with hle | hle
    · obtain ⟨k, rfl⟩ := Nat.exists_eq_add_of_le hle
      rw [run_add, hrun, run_exited hphase] at hrun'
      exact hrun'
    · obtain ⟨k, rfl⟩ := Nat.exists_eq_add_of_le hle
      rw [run_add, hrun', run_exited hphase'] at hrun
      exact hrun.symm
  obtain ⟨rfl, rfl⟩ := Prod.mk.inj hsame
  rw [hphase] at hphase'
  exact ⟨Phase.exited.inj hphase', rfl⟩

/-! ### Before the copying -/

section Fresh

variable {k i : Option ℕ} {phase : Phase}

theorem step_fresh (hphase : phase.isExited = false) :
    T.step bufsiz a p fs (.fresh phase k i) = T.action a p fs (.fresh phase k i) := by
  have hexited : ¬(Proc.fresh phase k i).phase.isExited = true := by
    rw [Bool.not_eq_true]
    exact hphase
  have hshort : ¬bufsiz < (Proc.fresh phase k i).buf.length := Nat.not_lt_zero bufsiz
  rw [Tool.step, if_neg hexited, if_neg hshort]

omit [DecidableEq P] in
theorem openLock_some {i : ℕ} (h : (fs.openCreate T.lockfname).1 = some i) :
    T.openLock fs (.fresh .openLock k none) =
      ((fs.openCreate T.lockfname).2, .fresh .setLock k (some i)) := by
  rw [Tool.openLock]
  simp only [h]
  rfl

omit [DecidableEq P] in
theorem openLock_none (h : (fs.openCreate T.lockfname).1 = none) :
    T.openLock fs (.fresh .openLock k none) =
      ((fs.openCreate T.lockfname).2, .fresh (.exiting 1) k none) := by
  rw [Tool.openLock]
  simp only [h]
  rfl

theorem setLock_some {i : ℕ} {fs₁ : Files P} (h : fs.setLock p i = some fs₁) :
    Tool.setLock p fs (.fresh .setLock k (some i)) = (fs₁, .fresh .prompt k (some i)) := by
  rw [Tool.setLock, show (Proc.fresh .setLock k (some i)).tofp = some i from rfl, Option.bind_some,
    h]
  rfl

theorem setLock_none {i : ℕ} (h : fs.setLock p i = none) :
    Tool.setLock p fs (.fresh .setLock k (some i)) = (fs, .fresh (.exiting 1) k (some i)) := by
  rw [Tool.setLock, show (Proc.fresh .setLock k (some i)).tofp = some i from rfl, Option.bind_some,
    h]
  rfl

variable (T bufsiz a p fs) in
theorem step_start :
    (∃ k, T.step bufsiz a p fs .start = (fs, .fresh (.exiting 1) k none)) ∨
      (¬∃ n ∈ T.maxIdentity, n < a.idname.length) ∧
        afterOpen a (fs.openFile a.fname) = .openLock ∧
        T.step bufsiz a p fs .start = (fs, .fresh .openLock (fs.openFile a.fname) none) := by
  have hstep : T.step bufsiz a p fs .start = (fs, T.openKey a fs .start) := step_fresh rfl
  rw [hstep, Tool.openKey]
  split
  · exact .inl ⟨none, rfl⟩
  · rename_i hshort
    rcases afterOpen_cases a (fs.openFile a.fname) with hopened | hopened
    · rw [hopened]
      exact .inr ⟨hshort, rfl, rfl⟩
    · rw [hopened]
      exact .inl ⟨fs.openFile a.fname, rfl⟩

variable (T bufsiz a p fs) in
theorem step_openLock :
    T.step bufsiz a p fs (.fresh .openLock k none) =
        ((fs.openCreate T.lockfname).2, .fresh (.exiting 1) k none) ∨
      ∃ i, (fs.openCreate T.lockfname).1 = some i ∧
        T.step bufsiz a p fs (.fresh .openLock k none) =
          ((fs.openCreate T.lockfname).2, .fresh .setLock k (some i)) := by
  have hstep : T.step bufsiz a p fs (.fresh .openLock k none) =
      T.openLock fs (.fresh .openLock k none) := step_fresh rfl
  rw [hstep]
  cases hlock : (fs.openCreate T.lockfname).1 with
  | none => exact .inl (openLock_none hlock)
  | some i => exact .inr ⟨i, rfl, openLock_some hlock⟩

variable (T bufsiz a p fs) in
theorem step_setLock {i : ℕ} :
    T.step bufsiz a p fs (.fresh .setLock k (some i)) = (fs, .fresh (.exiting 1) k (some i)) ∨
      ∃ fs₁, fs.setLock p i = some fs₁ ∧
        T.step bufsiz a p fs (.fresh .setLock k (some i)) = (fs₁, .fresh .prompt k (some i)) := by
  have hstep : T.step bufsiz a p fs (.fresh .setLock k (some i)) =
      Tool.setLock p fs (.fresh .setLock k (some i)) := step_fresh rfl
  rw [hstep]
  cases hset : fs.setLock p i with
  | none => exact .inl (setLock_none hset)
  | some fs₁ => exact .inr ⟨fs₁, rfl, setLock_some hset⟩

variable (T bufsiz a p fs) in
theorem step_prompt :
    T.step bufsiz a p fs (.fresh .prompt k i) = (fs, .fresh (.exiting 1) k i) ∨
      T.afterPrompt a = .firstPass ∧
        T.step bufsiz a p fs (.fresh .prompt k i) = (fs, .fresh .firstPass k i) := by
  have hstep : T.step bufsiz a p fs (.fresh .prompt k i) = (fs, .fresh (T.afterPrompt a) k i) :=
    step_fresh rfl
  rw [hstep]
  rcases afterPrompt_cases T a with hprompted | hprompted
  · rw [hprompted]
    exact .inr ⟨rfl, rfl⟩
  · rw [hprompted]
    exact .inl rfl

/-- An operation that fails makes the process exit. -/
theorem phase_of_exiting (h : T.step bufsiz a p fs s = (fs', .fresh (.exiting 1) k i)) :
    (T.step bufsiz a p fs s).2.phase = .exiting 1 := by
  rw [h]
  rfl

theorem exits_of_exiting (h : T.step bufsiz a p fs s = (fs', .fresh (.exiting 1) k i)) :
    ∃ fs'', T.Exits bufsiz a p fs s 1 fs'' := by
  have hfinish : T.step bufsiz a p fs' (.fresh (.exiting 1) k i) =
      finish p 1 fs' (.fresh (.exiting 1) k i) := step_fresh rfl
  have hrun : T.run bufsiz a p 2 fs s = finish p 1 fs' (.fresh (.exiting 1) k i) := by
    rw [run_succ, h, run_succ, hfinish]
    rfl
  exact ⟨_, 2, _, hrun, rfl⟩

end Fresh

/-- The states of a run up to the copying. `fs₁` are the files when the lock is taken. -/
theorem run_fresh {i : ℕ} {fs₁ : Files P} (h : T.Accepts a fs)
    (hlock : (fs.openCreate T.lockfname).1 = some i)
    (hset : (fs.openCreate T.lockfname).2.setLock p i = some fs₁) :
    T.run bufsiz a p 1 fs .start = (fs, .fresh .openLock (fs.openFile a.fname) none) ∧
      T.run bufsiz a p 2 fs .start =
        ((fs.openCreate T.lockfname).2, .fresh .setLock (fs.openFile a.fname) (some i)) ∧
      T.run bufsiz a p 3 fs .start = (fs₁, .fresh .prompt (fs.openFile a.fname) (some i)) ∧
      T.run bufsiz a p 4 fs .start = (fs₁, .fresh .firstPass (fs.openFile a.fname) (some i)) := by
  have h₁ : T.step bufsiz a p fs .start = (fs, .fresh .openLock (fs.openFile a.fname) none) := by
    rw [Proc.start, step_fresh rfl]
    show (fs, T.openKey a fs .start) = _
    rw [Tool.openKey, if_neg h.short, h.opened]
    rfl
  have h₂ : T.step bufsiz a p fs (.fresh .openLock (fs.openFile a.fname) none) =
      ((fs.openCreate T.lockfname).2, .fresh .setLock (fs.openFile a.fname) (some i)) := by
    rw [step_fresh rfl]
    exact openLock_some hlock
  have h₃ : T.step bufsiz a p (fs.openCreate T.lockfname).2
      (.fresh .setLock (fs.openFile a.fname) (some i)) =
        (fs₁, .fresh .prompt (fs.openFile a.fname) (some i)) := by
    rw [step_fresh rfl]
    exact setLock_some hset
  have h₄ : T.step bufsiz a p fs₁ (.fresh .prompt (fs.openFile a.fname) (some i)) =
      (fs₁, .fresh .firstPass (fs.openFile a.fname) (some i)) := by
    rw [step_fresh rfl]
    show (fs₁, Proc.goto _ (T.afterPrompt a)) = _
    rw [h.prompted]
    rfl
  refine ⟨?_, ?_, ?_, ?_⟩
  · rw [run_succ, h₁]
    rfl
  · rw [run_succ, h₁, run_succ, h₂]
    rfl
  · rw [run_succ, h₁, run_succ, h₂, run_succ, h₃]
    rfl
  · rw [run_succ, h₁, run_succ, h₂, run_succ, h₃, run_succ, h₄]
    rfl

/-- A run fails, or it passes all checks. -/
theorem start_cases (T : Tool) (bufsiz : ℕ) (a : Args) (p : P) (fs : Files P) :
    (∃ fs', T.Exits bufsiz a p fs .start 1 fs') ∨
      T.Accepts a fs ∧ ∃ i fs₁, (fs.openCreate T.lockfname).1 = some i ∧
        (fs.openCreate T.lockfname).2.setLock p i = some fs₁ := by
  have hnext : ∀ {s s' : Proc} {fs fs₁ : Files P}, T.step bufsiz a p fs s = (fs₁, s') →
      (∃ fs', T.Exits bufsiz a p fs₁ s' 1 fs') → ∃ fs', T.Exits bufsiz a p fs s 1 fs' := by
    rintro s s' fs fs₁ hstep ⟨fs', hexits⟩
    refine ⟨fs', @exits_of_run _ _ _ _ _ _ _ _ _ 1 _ ?_⟩
    rw [run_succ, hstep]
    exact hexits
  rcases step_start T bufsiz a p fs with
    ⟨k, h₁⟩ | ⟨hshort, hopened, h₁⟩
  · exact .inl (exits_of_exiting h₁)
  rcases step_openLock T bufsiz a p fs (k := fs.openFile a.fname) with
    h₂ | ⟨i, hlock, h₂⟩
  · exact .inl (hnext h₁ (exits_of_exiting h₂))
  rcases step_setLock T bufsiz a p (fs.openCreate T.lockfname).2 (k := fs.openFile a.fname)
    (i := i) with h₃ | ⟨fs₁, hset, h₃⟩
  · exact .inl (hnext h₁ (hnext h₂ (exits_of_exiting h₃)))
  rcases step_prompt T bufsiz a p fs₁ (k := fs.openFile a.fname) (i := some i) with
    h₄ | ⟨hprompted, h₄⟩
  · exact .inl (hnext h₁ (hnext h₂ (hnext h₃ (exits_of_exiting h₄))))
  · exact .inr ⟨⟨hshort, hopened, hprompted⟩, i, fs₁, hlock, hset⟩

theorem Tool.Exits.accepts (h : T.Exits bufsiz a p fs .start 0 fs') :
    T.Accepts a fs ∧ ∃ i fs₁, (fs.openCreate T.lockfname).1 = some i ∧
      (fs.openCreate T.lockfname).2.setLock p i = some fs₁ := by
  rcases start_cases T bufsiz a p fs with ⟨fs'', hfails⟩ | haccepts
  · have hstatus := (h.unique hfails).1
    cases hstatus
  · exact haccepts

/-! ### The copying -/

/-- What a run reads; `none` when the file cannot be opened. -/
def Tool.oldText (a : Args) (fs : Files P) : Option (List UInt8) :=
  (fs.openFile a.fname).map fs.data

/-- What earlier runs have left in the lock file. -/
def Tool.leftover (T : Tool) (fs : Files P) : List UInt8 := (fs.content T.lockfname).getD []

def Tool.newText (T : Tool) (a : Args) (fs : Files P) : List UInt8 :=
  T.format.newText (oldText a fs) a.idname (T.format.newLine a.idname a.value)

omit [DecidableEq P] in
theorem Working.fresh {i status : ℕ} {k : Option ℕ} {new : List UInt8}
    (hlock : fs.dir T.lockfname = some i) (hne : k ≠ some i)
    (hvalue : a.doDelete = false → a.passphrase ≠ none)
    (hupdate : T.format.update (k.map fs.data) a.idname a.value = some (status, new)) :
    Working T bufsiz a (k.map fs.data) i (fs.data i) status new fs
      (.fresh .firstPass k (some i)) where
  lock := hlock
  source := rfl
  source_ne := hne
  value := hvalue
  pending := .inl rfl
  output := by
    refine ⟨[], ⟨rfl, Nat.zero_le _, rfl, rfl, Nat.dvd_zero _⟩, ?_⟩
    show T.format.updateFrom ((k.map fs.data).map fun text => text.drop 0) 0 a.idname a.value [] = _
    simp only [List.drop_zero, Option.map_id']
    rw [Format.updateFrom_zero]
    exact hupdate

omit [DecidableEq P] in
theorem passphrase_ne_none (h : T.afterPrompt a = .firstPass) (hdel : a.doDelete = false) :
    a.passphrase ≠ none := by
  intro hnone
  rw [Tool.afterPrompt, if_neg (by simp [hdel]), if_pos hnone] at h
  split at h <;> cases h

omit [DecidableEq P] in
theorem dir_of_openFile {n : Name} {i : ℕ} (h : fs.openFile n = some i) : fs.dir n = some i :=
  (Option.filter_eq_some_iff.mp h).1

theorem working_fresh (bufsiz : ℕ) {i status : ℕ} {new : List UInt8} {fs₁ : Files P}
    (h : T.Accepts a fs) (hlock : (fs.openCreate T.lockfname).1 = some i)
    (hset : (fs.openCreate T.lockfname).2.setLock p i = some fs₁) (hname : a.fname ≠ T.lockfname)
    (hupdate : T.format.update (oldText a fs) a.idname a.value = some (status, new)) :
    Working T bufsiz a (oldText a fs) i (T.leftover fs) status new fs₁
        (.fresh .firstPass (fs.openFile a.fname) (some i)) ∧
      fs₁.content a.fname = fs.content a.fname := by
  obtain ⟨hdirlock, hleft, hdir, hdata⟩ := FileSystem.openCreate_eq hlock
  obtain ⟨hdir₁, hdata₁, -⟩ := FileSystem.setLock_eq hset
  have hfname : fs₁.dir a.fname = fs.dir a.fname := by
    rw [hdir₁]
    exact hdir a.fname hname
  have hfile : ∀ j, fs.dir a.fname = some j → fs₁.data j = fs.data j := by
    intro j hj
    rw [hdata₁]
    exact (hdata j (fs.isDir.lt _ j hj)).1
  have hold : (fs.openFile a.fname).map fs₁.data = oldText a fs := by
    rw [oldText]
    cases hj : fs.openFile a.fname with
    | none => rfl
    | some j => rw [Option.map_some, Option.map_some, hfile j (dir_of_openFile hj)]
  have hlock₁ : fs₁.dir T.lockfname = some i := by
    rw [hdir₁]
    exact hdirlock
  have hne : fs.openFile a.fname ≠ some i := by
    intro heq
    have hi := dir_of_openFile heq
    rw [← hfname] at hi
    exact hname (fs₁.isDir.inj _ _ i hi hlock₁)
  constructor
  · have hworking := @Working.fresh _ T bufsiz a fs₁ i status _ new hlock₁ hne
      (passphrase_ne_none h.prompted) (by rw [hold]; exact hupdate)
    rw [hold, hdata₁, hleft] at hworking
    exact hworking
  · rw [FileSystem.content, FileSystem.content, hfname]
    cases hj : fs.dir a.fname with
    | none => rfl
    | some j => rw [Option.map_some, Option.map_some, hfile j hj]

section Working

variable {old : Option (List UInt8)} {i : ℕ} {left new : List UInt8}

omit [DecidableEq P] in
/-- Only the lock file is written to. -/
theorem Working.content_eq {status : ℕ} (hname : a.fname ≠ T.lockfname)
    (h : Working T bufsiz a old i left status new fs s) (hdir : fs'.dir = fs.dir)
    (hdata : ∀ j, j ≠ i → fs'.data j = fs.data j) :
    fs'.content a.fname = fs.content a.fname := by
  rw [FileSystem.content, FileSystem.content, hdir]
  cases hj : fs.dir a.fname with
  | none => rfl
  | some j =>
      have hne : j ≠ i := by
        rintro rfl
        exact hname (fs.isDir.inj _ _ j hj h.lock)
      rw [Option.map_some, Option.map_some, hdata j hne]

/-- A run that is to succeed comes to its rename, and the file is the same until then. -/
theorem Working.renamed (hpos : 0 < bufsiz) (hname : a.fname ≠ T.lockfname)
    (h : Working T bufsiz a old i left 0 new fs s) :
    ∃ n fs₁ s₁, T.run bufsiz a p n fs s = (fs₁, s₁) ∧ Renamed bufsiz a i left new fs₁ s₁ ∧
      ∀ m < n, (T.run bufsiz a p m fs s).1.content a.fname = fs.content a.fname := by
  induction s using (Proc.smaller_wf old).induction generalizing fs with
  | _ s ih =>
      have hnext := h.next_step (p := p) hpos hname
      cases hnext with
      | working h' hdir hdata howner hlt =>
          obtain ⟨n, fs₁, s₁, hrun, hrenamed, hsame⟩ := ih _ hlt h'
          refine ⟨n + 1, fs₁, s₁, by rw [run_succ, hrun], hrenamed, fun m hm => ?_⟩
          cases m with
          | zero => rfl
          | succ m =>
              rw [run_succ, hsame m (Nat.lt_of_succ_lt_succ hm)]
              exact h.content_eq hname hdir hdata
      | renamed h' hstatus hdir hdata =>
          refine ⟨1, _, _, run_succ 0 fs s, h', fun m hm => ?_⟩
          obtain rfl : m = 0 := by omega
          rfl
      | exited hstatus hphase hdir hnew hdata => cases hstatus

omit [DecidableEq P] in
/-- What the file is after the rename. -/
theorem Renamed.content (h : Renamed bufsiz a i left new fs s) :
    fs.content a.fname = some (new.take s.written ++ left.drop s.written) := by
  rw [FileSystem.content, h.fname, Option.map_some, h.output.data]

omit [DecidableEq P] in
/-- What has been written at the rename are the full buffers that a byte follows. -/
theorem Renamed.written_eq (hpos : 0 < bufsiz) (h : Renamed bufsiz a i left new fs s) :
    s.written = bufsiz * ((new.length - 1) / bufsiz) := by
  obtain ⟨n, hn⟩ := h.output.dvd
  have hle := h.output.written_le
  have hshort := h.short
  have hpending := h.pending
  rw [h.output.buf, List.length_drop] at hshort
  rw [Proc.Pending, h.output.buf, ne_eq, List.drop_eq_nil_iff] at hpending
  -- at most a buffer is left to write, and something is
  have hdiv : (new.length - 1) / bufsiz = n := by
    refine Nat.div_eq_of_lt_le ?_ ?_
    · rw [Nat.mul_comm, ← hn]
      omega
    · rw [Nat.mul_comm, Nat.mul_add, ← hn]
      omega
  rw [hn, hdiv]

theorem Renamed.step (T : Tool) (p : P) (h : Renamed bufsiz a i left new fs s) :
    (T.step bufsiz a p fs s).2.phase = .exited 0 ∧ (T.step bufsiz a p fs s).1.dir = fs.dir ∧
      (T.step bufsiz a p fs s).1.data i = new ++ left.drop new.length ∧
      ∀ j, j ≠ i → (T.step bufsiz a p fs s).1.data j = fs.data j := by
  have hexited : ¬s.phase.isExited = true := by
    rw [h.phase]
    simp [Phase.isExited]
  have hstep : T.step bufsiz a p fs s = finish p 0 fs s := by
    rw [Tool.step, if_neg hexited, if_neg (Nat.not_lt_of_ge h.short), Tool.action, h.phase]
  rw [hstep]
  refine ⟨rfl, flush_dir .., h.output.data_close, fun j hj => ?_⟩
  apply flush_data_of_ne
  rw [h.output.tofp]
  exact fun heq => hj (Option.some.inj heq).symm

theorem Renamed.exits (h : Renamed bufsiz a i left new fs s) :
    ∃ fs' s', T.run bufsiz a p 1 fs s = (fs', s') ∧ s'.phase = .exited 0 ∧
      fs'.content a.fname = some (new ++ left.drop new.length) := by
  obtain ⟨hphase, hdir, hnew, -⟩ := h.step T p
  refine ⟨_, _, run_succ 0 fs s, hphase, ?_⟩
  show ((T.step bufsiz a p fs s).1.dir a.fname).map (T.step bufsiz a p fs s).1.data = _
  rw [hdir, h.fname, Option.map_some, hnew]

theorem Working.exits {status : ℕ} (hpos : 0 < bufsiz) (hname : a.fname ≠ T.lockfname)
    (h : Working T bufsiz a old i left status new fs s) :
    ∃ fs', T.Exits bufsiz a p fs s status fs' ∧
      (status = 0 → fs'.content a.fname = some (new ++ left.drop new.length)) := by
  induction s using (Proc.smaller_wf old).induction generalizing fs with
  | _ s ih =>
      have hnext := h.next_step (p := p) hpos hname
      cases hnext with
      | working h' hdir hdata howner hlt =>
          obtain ⟨fs', hexits, hcontent⟩ := ih _ hlt h'
          exact ⟨fs', @exits_of_run _ _ _ _ _ _ _ _ _ 1 _ hexits, hcontent⟩
      | renamed h' hstatus hdir hdata =>
          obtain ⟨fs', s', hrun, hphase, hcontent⟩ := h'.exits (T := T) (p := p)
          subst hstatus
          exact ⟨fs', ⟨2, s', by rw [run_succ, hrun], hphase⟩, fun _ => hcontent⟩
      | exited hstatus hphase hdir hnew hdata =>
          refine ⟨_, ⟨1, _, run_succ 0 fs s, hphase⟩, fun hzero => ?_⟩
          rw [hzero] at hstatus
          cases hstatus

end Working

/-! ### A whole run -/

/-- The run after its checks: what it prints is what `Format.update` says. -/
theorem Tool.Accepts.exits {i status : ℕ} {new : List UInt8} {fs₁ : Files P} (hpos : 0 < bufsiz)
    (hname : a.fname ≠ T.lockfname) (h : T.Accepts a fs)
    (hlock : (fs.openCreate T.lockfname).1 = some i)
    (hset : (fs.openCreate T.lockfname).2.setLock p i = some fs₁)
    (hupdate : T.format.update (oldText a fs) a.idname a.value = some (status, new)) :
    ∃ fs', T.Exits bufsiz a p fs .start status fs' ∧
      (status = 0 → fs'.content a.fname = some (new ++ (T.leftover fs).drop new.length)) := by
  have hworking := (working_fresh bufsiz h hlock hset hname hupdate).1
  obtain ⟨fs', hexits, hcontent⟩ := hworking.exits (p := p) hpos hname
  refine ⟨fs', @exits_of_run _ _ _ _ _ _ _ _ _ 4 _ ?_, hcontent⟩
  rw [(run_fresh h hlock hset).2.2.2]
  exact hexits

theorem exits_start (T : Tool) (a : Args) (p : P) (fs : Files P) (hpos : 0 < bufsiz)
    (hname : a.fname ≠ T.lockfname) : ∃ status fs', T.Exits bufsiz a p fs .start status fs' := by
  rcases start_cases T bufsiz a p fs with ⟨fs', hfails⟩ | ⟨haccepts, i, fs₁, hlock, hset⟩
  · exact ⟨1, fs', hfails⟩
  · obtain ⟨⟨status, new⟩, hupdate⟩ :=
      T.format.update_isSome (oldText a fs) a.idname a.value
    obtain ⟨fs', hexits, -⟩ := haccepts.exits hpos hname hlock hset hupdate
    exact ⟨status, fs', hexits⟩

/-- A run that succeeds has updated the file. -/
theorem Tool.Exits.update (hpos : 0 < bufsiz) (hname : a.fname ≠ T.lockfname)
    (h : T.Exits bufsiz a p fs .start 0 fs') :
    T.format.update (oldText a fs) a.idname a.value = some (0, T.newText a fs) := by
  obtain ⟨haccepts, i, fs₁, hlock, hset⟩ := h.accepts
  obtain ⟨⟨status, new⟩, hupdate⟩ :=
    T.format.update_isSome (oldText a fs) a.idname a.value
  obtain ⟨fs'', hexits, -⟩ := haccepts.exits hpos hname hlock hset hupdate
  obtain ⟨rfl, -⟩ := h.unique hexits
  rw [hupdate, T.format.newText_update hupdate]
  rfl

/-- What the file is after a run that succeeds: the new text, and behind it what was left
of the lock file. -/
theorem Tool.Exits.content (hpos : 0 < bufsiz) (hname : a.fname ≠ T.lockfname)
    (h : T.Exits bufsiz a p fs .start 0 fs') :
    fs'.content a.fname =
      some (T.newText a fs ++ (T.leftover fs).drop (T.newText a fs).length) := by
  obtain ⟨haccepts, i, fs₁, hlock, hset⟩ := h.accepts
  obtain ⟨fs'', hexits, hcontent⟩ :=
    haccepts.exits hpos hname hlock hset (h.update hpos hname)
  obtain ⟨-, rfl⟩ := h.unique hexits
  exact hcontent rfl

end Runs

end I2util
