import I2util.Tools.Exclusion
import I2util.Tools.History
import Mathlib.Data.Fintype.Basic

/-!
Any number of processes on one file, each with a command of its own.

As long as a process gets the lock only with the file that is under the name, the
processes take effect one after the other, in the order in which they come to their ends.
-/

namespace I2util

variable {P : Type} [DecidableEq P]

namespace Sys

variable (T : Tool) (bufsiz : ℕ) (args : P → Args)

/-- When the process gets the lock, the name still refers to the file that it has opened, no
process has renamed the file without having come to its end, and the process is to write
over all that is in the lock file. -/
def Current (p : P) (sys : Sys P) : Prop :=
  (sys.proc p).phase = .setLock →
    ((sys.proc p).tofp.bind fun i => sys.fs.setLock p i).isSome = true →
    sys.fs.dir (args p).fname = (sys.proc p).fromfp ∧ (∀ q, (sys.proc q).phase ≠ .closeTo) ∧
      T.Covers (args p) sys.fs

instance [Fintype P] (p : P) (sys : Sys P) : Decidable (Current T args p sys) :=
  inferInstanceAs (Decidable (_ → _ → _ ∧ _ ∧
    (T.leftover sys.fs).length ≤ (T.newText (args p) sys.fs).length))

def CurrentRun : Sys P → List P → Prop
  | _, [] => True
  | sys, p :: sched => Current T args p sys ∧ CurrentRun (sys.step T bufsiz args p) sched

instance decidableCurrentRun [Fintype P] :
    (sched : List P) → (sys : Sys P) → Decidable (CurrentRun T bufsiz args sys sched)
  | [], _ => .isTrue trivial
  | p :: sched, sys =>
      have := decidableCurrentRun sched (sys.step T bufsiz args p)
      inferInstanceAs (Decidable (_ ∧ _))

def Ends (p : P) (sys : Sys P) : Prop :=
  (sys.proc p).phase.isExited = false ∧ ((sys.step T bufsiz args p).proc p).phase = .exited 0

instance (p : P) (sys : Sys P) : Decidable (Ends T bufsiz args p sys) :=
  inferInstanceAs (Decidable (_ ∧ _))

def ends : Sys P → List P → List P
  | _, [] => []
  | sys, p :: sched =>
      (if Ends T bufsiz args p sys then [p] else []) ++ ends (sys.step T bufsiz args p) sched

end Sys

variable {T : Tool} {bufsiz : ℕ} {args : P → Args} {a : Args} {fname : Name}
  {I V : Set (List UInt8)} {fs fs' : Files P} {x x' : Proc} {p q : P} {sys : Sys P}

/-! ### Processes without the lock -/

/-- A process that has not got the lock and may still get it, or that has nothing to write
and is to fail, or that has come to its end. If the file that it has opened is under the
name, then so is its lock file. -/
inductive Outside (T : Tool) (fname : Name) (fs : Files P) : Proc → Prop
  | start : Outside T fname fs .start
  | openLock (k : Option ℕ) : Outside T fname fs (.fresh .openLock k none)
  | setLock (k : Option ℕ) (j : ℕ) (h : fs.dir fname = k → fs.dir T.lockfname = some j) :
      Outside T fname fs (.fresh .setLock k (some j))
  | failed (k i : Option ℕ) : Outside T fname fs (.fresh (.exiting 1) k i)
  | exited (x : Proc) (h : x.phase.isExited = true) : Outside T fname fs x

/-- What an operation outside of the lock does to the files. -/
inductive Calm (T : Tool) (fs fs' : Files P) : Prop
  | same (hdir : fs'.dir = fs.dir) (hdata : fs'.data = fs.data)
  | created (hnone : fs.dir T.lockfname = none) (hcreate : fs' = fs.create T.lockfname)

omit [DecidableEq P] in
theorem Calm.content (h : Calm T fs fs') (hname : fname ≠ T.lockfname) :
    fs'.dir fname = fs.dir fname ∧ fs'.content fname = fs.content fname := by
  cases h with
  | same hdir hdata => exact ⟨by rw [hdir], by rw [FileSystem.content, hdir, hdata]; rfl⟩
  | created hnone hcreate =>
      subst hcreate
      have hcontent := @content_openCreate P fs T.lockfname fname hname
      rw [FileSystem.openCreate, hnone] at hcontent
      exact ⟨Function.update_of_ne hname _ _, hcontent⟩

omit [DecidableEq P] in
theorem Outside.congr (h : Outside T fname fs x) (hdir : fs'.dir = fs.dir) :
    Outside T fname fs' x := by
  cases h with
  | start => exact .start
  | openLock k => exact .openLock k
  | setLock k j h => exact .setLock k j (by rw [hdir]; exact h)
  | failed k i => exact .failed k i
  | exited x h => exact .exited x h

omit [DecidableEq P] in
theorem Outside.calm (h : Outside T fname fs x) (hname : fname ≠ T.lockfname)
    (hcalm : Calm T fs fs') : Outside T fname fs' x := by
  have hdir := (hcalm.content hname).1
  cases h with
  | start => exact .start
  | openLock k => exact .openLock k
  | setLock k j h =>
      refine .setLock k j fun hk => ?_
      rw [hdir] at hk
      cases hcalm with
      | same hsame _ =>
          rw [hsame]
          exact h hk
      | created hnone _ =>
          have hlock := h hk
          rw [hnone] at hlock
          cases hlock
  | failed k i => exact .failed k i
  | exited x h => exact .exited x h

omit [DecidableEq P] in
/-- Another process renames the lock file. A process that has opened the old file has not
opened this one. -/
theorem Outside.renamed {i : ℕ} (h : Outside T fname fs x) (hlock : fs.dir T.lockfname = some i)
    (hsource : ∀ k, x.fromfp = some k → fs.dir T.lockfname ≠ some k)
    (hfile : fs'.dir fname = some i) : Outside T fname fs' x := by
  cases h with
  | start => exact .start
  | openLock k => exact .openLock k
  | setLock k j h =>
      refine .setLock k j fun hk => ?_
      rw [hfile] at hk
      exact absurd hlock (hsource i hk.symm)
  | failed k i => exact .failed k i
  | exited x h => exact .exited x h

theorem Outside.step (h : Outside T a.fname fs x) :
    (Calm T fs (T.step bufsiz a p fs x).1 ∧
        Outside T a.fname (T.step bufsiz a p fs x).1 (T.step bufsiz a p fs x).2 ∧
        (x.phase.isExited = true ∨ (T.step bufsiz a p fs x).2.phase ≠ .exited 0)) ∨
      ∃ k j fs₁, x = .fresh .setLock k (some j) ∧
        (fs.dir a.fname = k → fs.dir T.lockfname = some j) ∧ fs.setLock p j = some fs₁ ∧
        T.step bufsiz a p fs x = (fs₁, .fresh .prompt k (some j)) := by
  cases h with
  | start =>
      left
      rcases step_start T bufsiz a p fs with ⟨k, hstep⟩ | ⟨-, -, hstep⟩
      · rw [hstep]
        exact ⟨.same rfl rfl, .failed k none, .inr fun h => by cases h⟩
      · rw [hstep]
        exact ⟨.same rfl rfl, .openLock _, .inr fun h => by cases h⟩
  | openLock k =>
      left
      cases hlock : fs.dir T.lockfname with
      | some i =>
          obtain ⟨hsame, hi⟩ := FileSystem.openCreate_of_some hlock
          rcases step_openLock T bufsiz a p fs (k := k) with hstep | ⟨j, hj, hstep⟩
          · rw [hstep, hsame]
            exact ⟨.same rfl rfl, .failed k none, .inr fun h => by cases h⟩
          · rw [hstep, hsame]
            obtain rfl := hi j hj
            exact ⟨.same rfl rfl, .setLock k j fun _ => hlock, .inr fun h => by cases h⟩
      | none =>
          have hcreate : fs.openCreate T.lockfname = (some fs.used, fs.create T.lockfname) := by
            rw [FileSystem.openCreate, hlock]
          have hfile : (fs.create T.lockfname).dir T.lockfname = some fs.used :=
            Function.update_self _ _ _
          rcases step_openLock T bufsiz a p fs (k := k) with hstep | ⟨j, hj, hstep⟩
          · rw [hstep, hcreate]
            exact ⟨.created hlock rfl, .failed k none, .inr fun h => by cases h⟩
          · rw [hstep, hcreate]
            rw [hcreate] at hj
            obtain rfl := Option.some.inj hj
            exact ⟨.created hlock rfl, .setLock k _ fun _ => hfile, .inr fun h => by cases h⟩
  | setLock k j h =>
      rcases step_setLock T bufsiz a p fs (k := k) (i := j) with hstep | ⟨fs₁, hset, hstep⟩
      · left
        rw [hstep]
        exact ⟨.same rfl rfl, .failed k _, .inr fun h => by cases h⟩
      · exact .inr ⟨k, j, fs₁, rfl, h, hset, hstep⟩
  | failed k i =>
      left
      have hstep : T.step bufsiz a p fs (.fresh (.exiting 1) k i) =
          Tool.finish p 1 fs (.fresh (.exiting 1) k i) := step_fresh rfl
      have hidle : ¬(Proc.fresh (.exiting 1) k i).Inside := not_inside_exiting ⟨rfl, rfl⟩ rfl
      rw [hstep]
      refine ⟨.same (flush_dir ..) ?_, .exited _ rfl, .inr fun h => by cases h⟩
      exact flush_data_of_not_inside hidle rfl _
  | exited x h =>
      left
      have hstep : T.step bufsiz a p fs x = (fs, x) := by rw [Tool.step, if_pos h]
      rw [hstep]
      exact ⟨.same rfl rfl, .exited x h, .inl h⟩

/-! ### The invariant -/

/-- What a process is to leave in the lock file, which holds `left`: the store with its
command done. -/
def Updates (T : Tool) (I : Set (List UInt8)) (a : Args) (s : Option (Store T.format))
    (left new : List UInt8) : Prop :=
  left.length ≤ new.length ∧ ∃ s' : Store T.format, new = s'.text ∧ (∀ i ∈ s'.ids, i ∈ I) ∧
    Store.lookup (some s') = a.apply (Store.lookup s)

/-- At most one process has got the lock and works, or has renamed its file. The file under
the name is the store, until then. -/
inductive Linear (T : Tool) (bufsiz : ℕ) (args : P → Args) (fname : Name)
    (I : Set (List UInt8)) (s : Option (Store T.format)) (sys : Sys P) : Prop
  | quiet (hfile : sys.fs.content fname = s.map Store.text)
      (hall : ∀ q, Outside T fname sys.fs (sys.proc q))
  | prompting (p : P) (i : ℕ) (k : Option ℕ) (hfile : sys.fs.content fname = s.map Store.text)
      (hlock : sys.fs.dir T.lockfname = some i) (howner : sys.fs.owner i = some p)
      (hk : sys.fs.dir fname = k) (hproc : sys.proc p = .fresh .prompt k (some i))
      (hcovers : (T.leftover sys.fs).length ≤ (T.format.newText (s.map Store.text)
        (args p).idname (T.format.newLine (args p).idname (args p).value)).length)
      (hothers : ∀ q, q ≠ p → Outside T fname sys.fs (sys.proc q))
  | working (p : P) (i : ℕ) (left : List UInt8) (status : ℕ) (new : List UInt8)
      (hfile : sys.fs.content fname = s.map Store.text) (howner : sys.fs.owner i = some p)
      (hp : Working T bufsiz (args p) (s.map Store.text) i left status new sys.fs (sys.proc p))
      (hnew : status = 0 → Updates T I (args p) s left new)
      (hothers : ∀ q, q ≠ p → Outside T fname sys.fs (sys.proc q))
  | renamed (p : P) (i : ℕ) (left new : List UInt8)
      (hp : Renamed bufsiz (args p) i left new sys.fs (sys.proc p))
      (hnew : Updates T I (args p) s left new)
      (hothers : ∀ q, q ≠ p → Outside T fname sys.fs (sys.proc q))

/-- The processes have the same file, and commands for identities in `I`. -/
structure Commands (T : Tool) (args : P → Args) (fname : Name) (I V : Set (List UInt8)) :
    Prop where
  serves : T.Serves I V
  fname_ne : fname ≠ T.lockfname
  fname_eq : ∀ p, (args p).fname = fname
  idname : ∀ p, (args p).idname ∈ I
  value : ∀ p v, (args p).value = some v → v ∈ V

section Step

variable {s : Option (Store T.format)}

omit [DecidableEq P] in
theorem Commands.name_ne (hargs : Commands T args fname I V) (p : P) :
    (args p).fname ≠ T.lockfname := by
  rw [hargs.fname_eq]
  exact hargs.fname_ne

/-- A process that is ready to get the lock gets it only if it is free. -/
theorem Sys.Current.lock (hcurrent : sys.Current T args p) {k : Option ℕ} {j : ℕ}
    {fs₁ : Files P} (hproc : sys.proc p = .fresh .setLock k (some j))
    (hset : sys.fs.setLock p j = some fs₁) :
    sys.fs.dir (args p).fname = k ∧ (∀ q, (sys.proc q).phase ≠ .closeTo) ∧
      T.Covers (args p) sys.fs := by
  have h := hcurrent
  rw [Sys.Current, hproc] at h
  refine h rfl ?_
  rw [show (Proc.fresh .setLock k (some j)).tofp = some j from rfl, Option.bind_some, hset]
  rfl

/-- The step of a process that does not get the lock, for the others. -/
theorem Outside.others {r : P} (hothers : ∀ q, q ≠ r → Outside T fname sys.fs (sys.proc q))
    (hname : fname ≠ T.lockfname) (hcalm : Calm T sys.fs (sys.step T bufsiz args p).fs)
    (hself : p ≠ r → Outside T fname (sys.step T bufsiz args p).fs
      ((sys.step T bufsiz args p).proc p)) :
    ∀ q, q ≠ r → Outside T fname (sys.step T bufsiz args p).fs
      ((sys.step T bufsiz args p).proc q) := by
  intro q hq
  by_cases hqp : q = p
  · subst hqp
    exact hself hq
  · rw [Sys.step_proc_of_ne hqp]
    exact (hothers q hq).calm hname hcalm

def Stepped (T : Tool) (bufsiz : ℕ) (args : P → Args) (fname : Name) (I : Set (List UInt8))
    (s : Option (Store T.format)) (sys : Sys P) (p : P) : Prop :=
  ∃ s₁ : Option (Store T.format), (∀ s' ∈ s₁, ∀ i ∈ s'.ids, i ∈ I) ∧
    Linear T bufsiz args fname I s₁ (sys.step T bufsiz args p) ∧
    Store.lookup s₁ =
      if sys.Ends T bufsiz args p then (args p).apply (Store.lookup s) else Store.lookup s

/-- A step that ends no run. -/
theorem Linear.stepped (hids : ∀ s' ∈ s, ∀ i ∈ s'.ids, i ∈ I)
    (h : Linear T bufsiz args fname I s (sys.step T bufsiz args p))
    (hends : (sys.proc p).phase.isExited = true ∨
      ((sys.step T bufsiz args p).proc p).phase ≠ .exited 0) :
    Stepped T bufsiz args fname I s sys p := by
  refine ⟨s, hids, h, (if_neg fun hend => ?_).symm⟩
  rcases hends with hexited | hne
  · rw [hend.1] at hexited
    cases hexited
  · exact hne hend.2

/-- A step of a process that has not got the lock, where it does not get it. -/
theorem Outside.stepped (hargs : Commands T args fname I V)
    (hids : ∀ s' ∈ s, ∀ i ∈ s'.ids, i ∈ I) (hp : Outside T fname sys.fs (sys.proc p))
    (hcalm : Calm T sys.fs (sys.step T bufsiz args p).fs →
      Outside T fname (sys.step T bufsiz args p).fs ((sys.step T bufsiz args p).proc p) →
      Linear T bufsiz args fname I s (sys.step T bufsiz args p))
    (hlock : ∀ k j fs₁, sys.proc p = .fresh .setLock k (some j) →
      (sys.fs.dir fname = k → sys.fs.dir T.lockfname = some j) → sys.fs.setLock p j = some fs₁ →
      T.step bufsiz (args p) p sys.fs (sys.proc p) = (fs₁, .fresh .prompt k (some j)) →
      Stepped T bufsiz args fname I s sys p) :
    Stepped T bufsiz args fname I s sys p := by
  rw [← hargs.fname_eq p] at hp
  rcases hp.step (p := p) with ⟨hfiles, hout, hend⟩ | ⟨k, j, fs₁, hproc, hk, hset, hstep⟩
  · rw [hargs.fname_eq p, ← Sys.step_fs, ← Sys.step_proc_self] at hout
    rw [← Sys.step_proc_self] at hend
    exact (hcalm hfiles hout).stepped hids hend
  · rw [hargs.fname_eq p] at hk
    exact hlock k j fs₁ hproc hk hset hstep

theorem step_quiet (hargs : Commands T args fname I V) (hopen : Accessible sys.fs)
    (hids : ∀ s' ∈ s, ∀ i ∈ s'.ids, i ∈ I)
    (hfile : sys.fs.content fname = s.map Store.text)
    (hall : ∀ q, Outside T fname sys.fs (sys.proc q)) (hcurrent : sys.Current T args p) :
    Stepped T bufsiz args fname I s sys p := by
  refine (hall p).stepped hargs hids (fun hcalm hout => ?_)
    fun k j fs₁ hproc hk hset hstep => ?_
  · refine .quiet ((hcalm.content hargs.fname_ne).2.trans hfile) fun q => ?_
    by_cases hqp : q = p
    · exact hqp ▸ hout
    · rw [Sys.step_proc_of_ne hqp]
      exact (hall q).calm hargs.fname_ne hcalm
  · obtain ⟨hcur, -, hcovers⟩ := hcurrent.lock hproc hset
    obtain ⟨hdir₁, hdata₁, -⟩ := FileSystem.setLock_eq hset
    have hfs : (sys.step T bufsiz args p).fs = fs₁ := by rw [Sys.step_fs, hstep]
    have hnew : (sys.step T bufsiz args p).proc p = .fresh .prompt k (some j) := by
      rw [Sys.step_proc_self, hstep]
    rw [hargs.fname_eq] at hcur
    rw [Tool.Covers, Tool.newText, hopen.oldText, hargs.fname_eq, hfile] at hcovers
    refine Linear.stepped hids (.prompting p j k ?_ ?_ ?_ ?_ hnew ?_ fun q hq => ?_) (.inr ?_)
    · rw [hfs, ← hfile, FileSystem.content, hdir₁, hdata₁]
      rfl
    · rw [hfs, hdir₁]
      exact hk hcur
    · rw [hfs]
      exact FileSystem.setLock_owner hset
    · rw [hfs, hdir₁]
      exact hcur
    · rw [hfs, Tool.leftover, FileSystem.content, hdir₁, hdata₁]
      exact hcovers
    · rw [hfs, Sys.step_proc_of_ne hq]
      exact (hall q).calm hargs.fname_ne (.same hdir₁ hdata₁)
    · rw [hnew]
      intro h
      cases h

/-- The lock of another process is not to be had. -/
theorem Outside.not_locked {r : P} {i j : ℕ} {k : Option ℕ} {fs₁ : Files P}
    (hcurrent : sys.Current T args p) (hargs : Commands T args fname I V)
    (hproc : sys.proc p = .fresh .setLock k (some j))
    (hk : sys.fs.dir fname = k → sys.fs.dir T.lockfname = some j)
    (hset : sys.fs.setLock p j = some fs₁) (hlock : sys.fs.dir T.lockfname = some i)
    (howner : sys.fs.owner i = some r) (hpr : p ≠ r) : False := by
  have hcur := (hcurrent.lock hproc hset).1
  rw [hargs.fname_eq] at hcur
  obtain rfl := Option.some.inj (hlock.symm.trans (hk hcur))
  rw [FileSystem.setLock_of_owner howner hpr.symm] at hset
  cases hset

omit [DecidableEq P] in
/-- Where there is a lock file, an operation without the lock changes no names and no bytes. -/
theorem Calm.of_lock {i : ℕ} (h : Calm T fs fs') (hlock : fs.dir T.lockfname = some i) :
    fs'.dir = fs.dir ∧ fs'.data = fs.data := by
  cases h with
  | same hdir hdata => exact ⟨hdir, hdata⟩
  | created hnone _ =>
      rw [hnone] at hlock
      cases hlock

theorem AllHeld.owner_step {i : ℕ} {r : P} (h : AllHeld T sys)
    (hname : ∀ p, (args p).fname ≠ T.lockfname) (hi : i < sys.fs.used)
    (howner : sys.fs.owner i = some r) (hpr : p ≠ r) :
    (sys.step T bufsiz args p).fs.owner i = some r := by
  have hkeeps := @stepKeeps_step P _ T bufsiz (args p) p sys.fs (sys.proc p) (h p) (hname p)
  exact hkeeps.frame.owner i hi r hpr.symm howner

theorem step_prompting (hargs : Commands T args fname I V)
    (hheld : AllHeld T sys) (hids : ∀ s' ∈ s, ∀ i ∈ s'.ids, i ∈ I) {r : P} {i : ℕ} {k : Option ℕ}
    (hfile : sys.fs.content fname = s.map Store.text)
    (hlock : sys.fs.dir T.lockfname = some i) (howner : sys.fs.owner i = some r)
    (hk : sys.fs.dir fname = k) (hproc : sys.proc r = .fresh .prompt k (some i))
    (hcovers : (T.leftover sys.fs).length ≤ (T.format.newText (s.map Store.text)
      (args r).idname (T.format.newLine (args r).idname (args r).value)).length)
    (hothers : ∀ q, q ≠ r → Outside T fname sys.fs (sys.proc q))
    (hcurrent : sys.Current T args p) : Stepped T bufsiz args fname I s sys p := by
  by_cases hpr : p = r
  · subst hpr
    rcases step_prompt T bufsiz (args p) p sys.fs (k := k) (i := some i) with
      hstep | ⟨hprompted, hstep⟩
    · rw [← hproc] at hstep
      have hfs : (sys.step T bufsiz args p).fs = sys.fs := by rw [Sys.step_fs, hstep]
      have hnew : (sys.step T bufsiz args p).proc p = .fresh (.exiting 1) k (some i) := by
        rw [Sys.step_proc_self, hstep]
      refine Linear.stepped hids (.quiet (by rw [hfs]; exact hfile) fun q => ?_) (.inr ?_)
      · by_cases hqp : q = p
        · rw [hqp, hnew]
          exact .failed k (some i)
        · rw [hfs, Sys.step_proc_of_ne hqp]
          exact hothers q hqp
      · rw [hnew]
        intro h
        cases h
    · rw [← hproc] at hstep
      have hfs : (sys.step T bufsiz args p).fs = sys.fs := by rw [Sys.step_fs, hstep]
      have hnew : (sys.step T bufsiz args p).proc p = .fresh .firstPass k (some i) := by
        rw [Sys.step_proc_self, hstep]
      have hold : k.map sys.fs.data = s.map Store.text := by
        rw [← hk]
        exact hfile
      have hne : k ≠ some i := by
        rintro rfl
        exact hargs.fname_ne (sys.fs.isDir.inj _ _ i hk hlock)
      have hleft : T.leftover sys.fs = sys.fs.data i := by
        rw [Tool.leftover, FileSystem.content, hlock]
        rfl
      obtain ⟨⟨status, new⟩, hupdate⟩ :=
        T.format.update_isSome (s.map Store.text) (args p).idname (args p).value
      have hworking := @Working.fresh _ T bufsiz (args p) sys.fs i status k new hlock hne
        (passphrase_ne_none hprompted) (by rw [hold]; exact hupdate)
      rw [hold] at hworking
      refine Linear.stepped hids (.working p i (sys.fs.data i) status new ?_ ?_ ?_ ?_ ?_) (.inr ?_)
      · rw [hfs]
        exact hfile
      · rw [hfs]
        exact howner
      · rw [hfs, hnew]
        exact hworking
      · rintro rfl
        rw [hleft, ← T.format.newText_update hupdate] at hcovers
        exact ⟨hcovers, hargs.serves.update (hargs.idname p) (hargs.value p) hids hupdate⟩
      · intro q hq
        rw [hfs, Sys.step_proc_of_ne hq]
        exact hothers q hq
      · rw [hnew]
        intro h
        cases h
  · refine (hothers p hpr).stepped hargs hids (fun hcalm hout => ?_)
      fun k' j fs₁ hproc' hk' hset _ =>
        (Outside.not_locked hcurrent hargs hproc' hk' hset hlock howner hpr).elim
    obtain ⟨hdir, hdata⟩ := hcalm.of_lock hlock
    refine .prompting r i k ?_ ?_ ?_ ?_ ?_ ?_ ?_
    · exact (hcalm.content hargs.fname_ne).2.trans hfile
    · rw [hdir]
      exact hlock
    · exact hheld.owner_step hargs.name_ne (sys.fs.isDir.lt _ i hlock) howner hpr
    · rw [hdir]
      exact hk
    · rw [Sys.step_proc_of_ne (Ne.symm hpr)]
      exact hproc
    · rw [Tool.leftover, FileSystem.content, hdir, hdata]
      exact hcovers
    · exact Outside.others hothers hargs.fname_ne hcalm fun _ => hout

omit [DecidableEq P] in
theorem Working.phase_ne {old : Option (List UInt8)} {i st : ℕ} {left new : List UInt8}
    (h : Working T bufsiz a old i left st new fs x) : x.phase ≠ .exited 0 := by
  intro hphase
  obtain ⟨printed, -, htodo⟩ := h.output
  rw [hphase] at htodo
  cases htodo

theorem step_working (hargs : Commands T args fname I V) (hpos : 0 < bufsiz)
    (hheld : AllHeld T sys) (hids : ∀ s' ∈ s, ∀ i ∈ s'.ids, i ∈ I) {r : P} {i status : ℕ}
    {left new : List UInt8} (hfile : sys.fs.content fname = s.map Store.text)
    (howner : sys.fs.owner i = some r)
    (hr : Working T bufsiz (args r) (s.map Store.text) i left status new sys.fs (sys.proc r))
    (hnew : status = 0 → Updates T I (args r) s left new)
    (hothers : ∀ q, q ≠ r → Outside T fname sys.fs (sys.proc q))
    (hcurrent : sys.Current T args p) : Stepped T bufsiz args fname I s sys p := by
  by_cases hpr : p = r
  · subst hpr
    have hcontent : ∀ fs' : Files P, fs'.dir = sys.fs.dir →
        (∀ j, j ≠ i → fs'.data j = sys.fs.data j) → fs'.content fname = s.map Store.text := by
      intro fs' hdir hdata
      have hsame := hr.content_eq (hargs.name_ne p) hdir hdata
      rw [hargs.fname_eq] at hsame
      exact hsame.trans hfile
    have hout : (sys.step T bufsiz args p).fs.dir = sys.fs.dir → ∀ q, q ≠ p →
        Outside T fname (sys.step T bufsiz args p).fs ((sys.step T bufsiz args p).proc q) := by
      intro hdir q hq
      rw [Sys.step_proc_of_ne hq]
      exact (hothers q hq).congr hdir
    cases hr.next_step (p := p) hpos (hargs.name_ne p) with
    | working h hdir hdata howner' hlt =>
        rw [← Sys.step_fs] at hdir hdata howner'
        refine Linear.stepped hids (.working p i left status new ?_ ?_ ?_ hnew ?_) (.inr ?_)
        · exact hcontent _ hdir hdata
        · exact howner'.trans howner
        · rw [Sys.step_proc_self]
          exact h
        · exact hout hdir
        · rw [Sys.step_proc_self]
          exact h.phase_ne
    | renamed h hstatus hdir hdata =>
        rw [← Sys.step_fs] at hdir
        have hfile' : (sys.step T bufsiz args p).fs.dir fname = some i := by
          rw [hdir, hargs.fname_eq]
          exact Function.update_self _ _ _
        refine Linear.stepped hids (.renamed p i left new ?_ (hnew hstatus) ?_) (.inr ?_)
        · rw [Sys.step_proc_self]
          exact h
        · intro q hq
          rw [Sys.step_proc_of_ne hq]
          exact (hothers q hq).renamed hr.lock (fun k hk => ((hheld q).source k hk).2.1) hfile'
        · rw [Sys.step_proc_self, h.phase]
          intro hphase
          cases hphase
    | exited hstatus hphase hdir hnew' hdata =>
        rw [← Sys.step_fs] at hdir hdata
        rw [← Sys.step_proc_self, hstatus] at hphase
        refine Linear.stepped hids (.quiet (hcontent _ hdir hdata) fun q => ?_) (.inr ?_)
        · by_cases hq : q = p
          · rw [hq]
            exact .exited _ (by rw [hphase]; rfl)
          · exact hout hdir q hq
        · rw [hphase]
          intro h
          cases h
  · refine (hothers p hpr).stepped hargs hids (fun hcalm hout => ?_)
      fun k' j fs₁ hproc' hk' hset _ =>
        (Outside.not_locked hcurrent hargs hproc' hk' hset hr.lock howner hpr).elim
    obtain ⟨hdir, hdata⟩ := hcalm.of_lock hr.lock
    refine .working r i left status new ?_ ?_ ?_ hnew ?_
    · exact (hcalm.content hargs.fname_ne).2.trans hfile
    · exact hheld.owner_step hargs.name_ne (sys.fs.isDir.lt _ i hr.lock) howner hpr
    · rw [Sys.step_proc_of_ne (Ne.symm hpr)]
      exact hr.congr hdir hdata
    · exact Outside.others hothers hargs.fname_ne hcalm fun _ => hout

theorem step_renamed (hargs : Commands T args fname I V)
    (hids : ∀ s' ∈ s, ∀ i ∈ s'.ids, i ∈ I) {r : P} {i : ℕ} {left new : List UInt8}
    (hr : Renamed bufsiz (args r) i left new sys.fs (sys.proc r))
    (hnew : Updates T I (args r) s left new)
    (hothers : ∀ q, q ≠ r → Outside T fname sys.fs (sys.proc q))
    (hcurrent : sys.Current T args p) : Stepped T bufsiz args fname I s sys p := by
  have hfile : sys.fs.dir fname = some i := by
    rw [← hargs.fname_eq r]
    exact hr.fname
  by_cases hpr : p = r
  · subst hpr
    obtain ⟨hphase, hdir, hdata, -⟩ := hr.step T p
    obtain ⟨hleft, s', rfl, hids', hlookup⟩ := hnew
    rw [← Sys.step_proc_self] at hphase
    rw [← Sys.step_fs] at hdir hdata
    have hends : sys.Ends T bufsiz args p := ⟨by rw [hr.phase]; rfl, hphase⟩
    refine ⟨some s', fun s'' hs'' => Option.some.inj hs'' ▸ hids', .quiet ?_ fun q => ?_, ?_⟩
    · rw [FileSystem.content, hdir, hfile, Option.map_some, hdata, List.drop_eq_nil_of_le hleft,
        List.append_nil]
      rfl
    · by_cases hq : q = p
      · rw [hq]
        exact .exited _ (by rw [hphase]; rfl)
      · rw [Sys.step_proc_of_ne hq]
        exact (hothers q hq).congr hdir
    · rw [if_pos hends]
      exact hlookup
  · refine (hothers p hpr).stepped hargs hids (fun hcalm hout => ?_)
      fun k' j fs₁ hproc' _ hset _ =>
        absurd hr.phase ((hcurrent.lock hproc' hset).2.1 r)
    have hdir := (hcalm.content hargs.fname_ne).1
    have hdata : (sys.step T bufsiz args p).fs.data i = sys.fs.data i := by
      cases hcalm with
      | same _ hdata => rw [hdata]
      | created _ hcreate =>
          rw [hcreate]
          exact Function.update_of_ne (Nat.ne_of_lt (sys.fs.isDir.lt _ i hfile)) _ _
    refine .renamed r i left new ?_ hnew ?_
    · rw [Sys.step_proc_of_ne (Ne.symm hpr)]
      refine ⟨hr.phase, ?_, hr.output.congr hdata rfl rfl rfl, hr.pending, hr.short⟩
      rw [hargs.fname_eq, hdir]
      exact hfile
    · exact Outside.others hothers hargs.fname_ne hcalm fun _ => hout

theorem Linear.step (hargs : Commands T args fname I V) (hpos : 0 < bufsiz)
    (hopen : Accessible sys.fs) (hheld : AllHeld T sys) (hids : ∀ s' ∈ s, ∀ i ∈ s'.ids, i ∈ I)
    (h : Linear T bufsiz args fname I s sys) (hcurrent : sys.Current T args p) :
    Stepped T bufsiz args fname I s sys p := by
  cases h with
  | quiet hfile hall => exact step_quiet hargs hopen hids hfile hall hcurrent
  | prompting r i k hfile hlock howner hk hproc hcovers hothers =>
      exact step_prompting hargs hheld hids hfile hlock howner hk hproc hcovers hothers
        hcurrent
  | working r i left status new hfile howner hr hnew hothers =>
      exact step_working hargs hpos hheld hids hfile howner hr hnew hothers hcurrent
  | renamed r i left new hr hnew hothers =>
      exact step_renamed hargs hids hr hnew hothers hcurrent

theorem Linear.run (hargs : Commands T args fname I V) (hpos : 0 < bufsiz)
    (hopen : Accessible sys.fs) (hheld : AllHeld T sys) (hids : ∀ s' ∈ s, ∀ i ∈ s'.ids, i ∈ I)
    (h : Linear T bufsiz args fname I s sys) (sched : List P)
    (hcurrent : sys.CurrentRun T bufsiz args sched) :
    ∃ s₁ : Option (Store T.format), (∀ s' ∈ s₁, ∀ i ∈ s'.ids, i ∈ I) ∧
      Linear T bufsiz args fname I s₁ (sys.run T bufsiz args sched) ∧
      Store.lookup s₁ = (sys.ends T bufsiz args sched).foldl (fun m p => (args p).apply m)
        (Store.lookup s) := by
  induction sched generalizing s sys with
  | nil => exact ⟨s, hids, h, rfl⟩
  | cons p sched ih =>
      obtain ⟨s₁, hids₁, h₁, hlookup₁⟩ := h.step hargs hpos hopen hheld hids hcurrent.1
      obtain ⟨s₂, hids₂, h₂, hlookup₂⟩ := ih hopen.step (hheld.step hargs.name_ne p) hids₁ h₁
        hcurrent.2
      refine ⟨s₂, hids₂, h₂, ?_⟩
      rw [hlookup₂, hlookup₁, Sys.ends, List.foldl_append]
      split <;> rfl

end Step

/-- Any number of processes with commands for one file, in any order of their operations: if
each of them gets the lock with the file that is under the name, then the file is at any
time, but between a rename and the end of its process, what the commands of the processes
that have succeeded make of the map, in the order of their ends. -/
theorem tools_linear (hargs : Commands T args fname I V) (hpos : 0 < bufsiz)
    (hopen : Accessible fs) {s : Option (Store T.format)} (hids : ∀ s' ∈ s, ∀ i ∈ s'.ids, i ∈ I)
    (hold : fs.content fname = s.map Store.text) (sched : List P)
    (hcurrent : (Sys.start fs).CurrentRun T bufsiz args sched)
    (hclosed : ∀ p, (((Sys.start fs).run T bufsiz args sched).proc p).phase ≠ .closeTo) :
    T.Serving I (((Sys.start fs).run T bufsiz args sched).fs.content fname)
      (((Sys.start fs).ends T bufsiz args sched).foldl (fun m p => (args p).apply m)
        (Store.lookup s)) := by
  have hstart : Linear T bufsiz args fname I s (Sys.start fs) := .quiet hold fun _ => .start
  obtain ⟨s₁, hids₁, h₁, hlookup₁⟩ := hstart.run hargs hpos hopen (allHeld_start T fs) hids sched
    hcurrent
  have hfile : ((Sys.start fs).run T bufsiz args sched).fs.content fname =
      s₁.map Store.text := by
    cases h₁ with
    | quiet hfile _ => exact hfile
    | prompting _ _ _ hfile _ _ _ _ _ _ => exact hfile
    | working _ _ _ _ _ hfile _ _ _ _ => exact hfile
    | renamed r i left new hr _ _ => exact absurd hr.phase (hclosed r)
  rw [hfile, ← hlookup₁]
  exact hargs.serves.serving hids₁

/-! ### Three processes -/

def threeArgs : Fin 3 → Args
  | 0 => .addition (ascii "pf") (ascii "b") recordB.value
  | 1 => .addition (ascii "pf") (ascii "c") recordC.value
  | 2 => deletion "a"

/-- The second process does not get the lock, and the third one runs when the first one has
come to its end. -/
def threeSchedule : List (Fin 3) :=
  List.replicate 4 0 ++ List.replicate 4 1 ++ List.replicate 7 0 ++ List.replicate 11 2

def threeFiles : Files (Fin 3) := .single (ascii "pf") storeA.text

theorem commands_threeArgs :
    Commands pfstore threeArgs (ascii "pf") {ascii "a", ascii "b", ascii "c"} {v | v ≠ []} where
  serves := by
    apply pfstore_serves
    · rintro i (rfl | rfl | rfl) <;> exact ⟨by decide, by decide, by decide⟩
    · rintro i (rfl | rfl | rfl) j (rfl | rfl | rfl) <;> decide
  fname_ne := by decide
  fname_eq := by decide
  idname p := by
    fin_cases p
    · exact .inr (.inl rfl)
    · exact .inr (.inr rfl)
    · exact .inl rfl
  value p v hv := by
    fin_cases p
    · exact Option.some.inj hv ▸ (by decide : recordB.value ≠ [])
    · exact Option.some.inj hv ▸ (by decide : recordC.value ≠ [])
    · cases hv

set_option maxRecDepth 8000 in
theorem tools_linear_three :
    pfstore.Serving {ascii "a", ascii "b", ascii "c"}
      (((Sys.start threeFiles).run pfstore 4096 threeArgs threeSchedule).fs.content (ascii "pf"))
      ([0, 2].foldl (fun m p => (threeArgs p).apply m) (Store.lookup (some storeA))) := by
  have hends : (Sys.start threeFiles).ends pfstore 4096 threeArgs threeSchedule = [0, 2] := by
    decide
  have hlinear := @tools_linear (Fin 3) _ pfstore 4096 threeArgs (ascii "pf") _ _ threeFiles
    commands_threeArgs (Nat.zero_lt_of_lt (by decide : 1 < 4096)) (fun _ => rfl) (some storeA)
    (fun s hs i hi => by
      obtain rfl := Option.some.inj hs
      have hmem : i ∈ storeA.ids := hi
      rw [ids_storeA] at hmem
      exact .inl (List.mem_singleton.mp hmem))
    rfl threeSchedule (by decide) (by decide)
  rw [hends] at hlinear
  exact hlinear

end I2util
