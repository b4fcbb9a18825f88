import I2util.Tools.Waiting

/-!
Two processes that add or replace a record of the same file.

Nothing keeps a process from opening the file before it has the lock, nor from opening
it between the rename and the end of the other process. `Safe` excludes the two, and
then the processes take effect one after the other.
-/

namespace I2util

/-! ### Safe schedules -/

namespace Sys

variable (T : Tool) (bufsiz : ℕ) (args : Bool → Args)

/-- When the process gets the lock, the name still refers to the file it has opened; and it
does not read a file that the other process has renamed and not closed. -/
def Safe (p : Bool) (sys : Sys Bool) : Prop :=
  ((sys.proc p).phase = .setLock →
      ((sys.proc p).tofp.bind fun i => sys.fs.setLock p i).isSome = true →
      sys.fs.dir (args p).fname = (sys.proc p).fromfp) ∧
    ((sys.proc p).phase = .firstPass → (sys.proc !p).phase ≠ .closeTo)

instance (p : Bool) (sys : Sys Bool) : Decidable (Safe args p sys) :=
  inferInstanceAs (Decidable (_ ∧ _))

def SafeRun : Sys Bool → List Bool → Prop
  | _, [] => True
  | sys, p :: sched => Safe args p sys ∧ SafeRun (sys.step T bufsiz args p) sched

instance decidableSafeRun : (sched : List Bool) → (sys : Sys Bool) →
    Decidable (SafeRun T bufsiz args sys sched)
  | [], _ => .isTrue trivial
  | p :: sched, sys =>
      have := decidableSafeRun sched (sys.step T bufsiz args p)
      inferInstanceAs (Decidable (_ ∧ _))

end Sys

section StepProc

variable {P : Type} [DecidableEq P] {T : Tool} {bufsiz : ℕ} {args : P → Args} {p q : P}
  {sys : Sys P}

theorem Sys.step_proc_self : (sys.step T bufsiz args p).proc p =
    (T.step bufsiz (args p) p sys.fs (sys.proc p)).2 := Function.update_self ..

theorem Sys.step_proc_of_ne (h : q ≠ p) : (sys.step T bufsiz args p).proc q = sys.proc q :=
  Function.update_of_ne h _ _

theorem Sys.step_fs : (sys.step T bufsiz args p).fs =
    (T.step bufsiz (args p) p sys.fs (sys.proc p)).1 := rfl

theorem Sys.step_exited {status : ℕ} (h : (sys.proc p).phase = .exited status) :
    sys.step T bufsiz args p = sys := by
  have hstep : T.step bufsiz (args p) p sys.fs (sys.proc p) = (sys.fs, sys.proc p) := by
    rw [Tool.step, h]
    rfl
  rw [Sys.step, hstep]
  dsimp only
  rw [Function.update_eq_self]

end StepProc

/-! ### What two runs are for -/

/-- Two processes that add or replace the records `r` of a store. -/
structure Adding (T : Tool) (bufsiz : ℕ) (args : Bool → Args) (fname : Name) (s : Store T.format)
    (r : Bool → NewRecord T.format) : Prop where
  pos : 0 < bufsiz
  fname_eq : ∀ p, (args p).fname = fname
  fname_ne : fname ≠ T.lockfname
  doDelete : ∀ p, (args p).doDelete = false
  idname : ∀ p, (args p).idname = (r p).id
  passphrase : ∀ p, (args p).passphrase = some (r p).value
  ids_ne : (r true).id ≠ (r false).id
  distinguishes : ∀ p, s.Distinguishes (r p).id
  distinguishes_put : ∀ p, (s.put (r p)).Distinguishes (r !p).id

def putBoth {F : Format} (s : Store F) (r : Bool → NewRecord F) (p : Bool) : Store F :=
  (s.put (r p)).put (r !p)

/-- The file holds both new records and all others that it held before. -/
def Committed {F : Format} (s : Store F) (r : Bool → NewRecord F) (text : List UInt8) : Prop :=
  ∃ s' : Store F, text = s'.text ∧ (∀ p, s'.get (r p).id = some (r p).value) ∧
    ∀ id, (∀ p, id ≠ (r p).id) → s'.get id = s.get id

theorem committed_putBoth {F : Format} (s : Store F) (r : Bool → NewRecord F) (p : Bool)
    (h : (r true).id ≠ (r false).id) : Committed s r (putBoth s r p).text := by
  have hne : (r p).id ≠ (r !p).id := by
    cases p
    · exact h.symm
    · exact h
  refine ⟨putBoth s r p, rfl, fun q => ?_, fun id hid => ?_⟩
  · rw [putBoth, Store.get_put, Store.get_put]
    rcases Bool.eq_or_eq_not q p with rfl | rfl
    · rw [if_neg hne, if_pos rfl]
    · rw [if_pos rfl]
  · rw [putBoth, Store.get_put, Store.get_put, if_neg (hid _), if_neg (hid p)]

section Progress

variable {T : Tool} {bufsiz : ℕ} {args : Bool → Args} {fname : Name} {s : Store T.format}
  {r : Bool → NewRecord T.format} {sys : Sys Bool} {p q : Bool}

theorem Adding.value (h : Adding T bufsiz args fname s r) (p : Bool) :
    (args p).value = some (r p).value := by
  rw [Args.value, if_neg (by simp [h.doDelete p]), h.passphrase p]

theorem Adding.update (h : Adding T bufsiz args fname s r) (p : Bool) :
    T.format.update (some s.text) (args p).idname (args p).value =
      some (0, (s.put (r p)).text) := by
  rw [h.idname, h.value]
  exact Store.update_put (r p) (h.distinguishes p)

theorem Adding.update_put (h : Adding T bufsiz args fname s r) (p : Bool) :
    T.format.update (some (s.put (r p)).text) (args !p).idname (args !p).value =
      some (0, (putBoth s r p).text) := by
  rw [h.idname, h.value]
  exact Store.update_put (r !p) (h.distinguishes_put p)

theorem Adding.passphrase_ne (h : Adding T bufsiz args fname s r) (p : Bool) :
    (args p).passphrase ≠ none := by
  rw [h.passphrase p]
  exact Option.some_ne_none _

/-! ### The invariant -/

/-- The process that has the lock: the prompt comes before the copying. -/
def Holds (T : Tool) (bufsiz : ℕ) (a : Args) (old : List UInt8) (i : ℕ) (left new : List UInt8)
    (fs : Files Bool) (x : Proc) : Prop :=
  Working T bufsiz a (some old) i left 0 new fs x ∨
    ∃ k, x = .fresh .prompt k (some i) ∧
      Working T bufsiz a (some old) i left 0 new fs (.fresh .firstPass k (some i))

/-- How far the two processes are. `p` is the one that gets the lock first. -/
inductive Progress (T : Tool) (bufsiz : ℕ) (args : Bool → Args) (fname : Name)
    (s : Store T.format) (r : Bool → NewRecord T.format) (sys : Sys Bool) : Prop
  | failed (p : Bool) (h : (sys.proc p).phase = .exiting 1 ∨ (sys.proc p).phase = .exited 1)
  | idle (k : ℕ) (hdir : sys.fs.dir fname = some k) (hdata : sys.fs.data k = s.text)
      (hleft : ∀ p, (T.leftover sys.fs).length ≤ (s.put (r p)).text.length)
      (hearly : ∀ p, Early T fname sys.fs (sys.proc p))
  | holding (p : Bool) (i : ℕ) (left : List UInt8)
      (hleft : left.length ≤ (s.put (r p)).text.length) (howner : sys.fs.owner i = some p)
      (hp : Holds T bufsiz (args p) s.text i left (s.put (r p)).text sys.fs (sys.proc p))
      (hq : Early T fname sys.fs (sys.proc !p))
  | renamed (p : Bool) (i : ℕ) (left : List UInt8)
      (hleft : left.length ≤ (s.put (r p)).text.length)
      (hp : Renamed bufsiz (args p) i left (s.put (r p)).text sys.fs (sys.proc p))
      (hq : Later T i sys.fs (sys.proc !p))
  | committed (p : Bool) (i : ℕ) (hp : (sys.proc p).phase = .exited 0)
      (hdir : sys.fs.dir fname = some i) (hdata : sys.fs.data i = (s.put (r p)).text)
      (hq : Later T i sys.fs (sys.proc !p))
  | replacing (p : Bool) (j : ℕ) (hp : (sys.proc p).phase = .exited 0)
      (hq : Working T bufsiz (args !p) (some (s.put (r p)).text) j [] 0 (putBoth s r p).text
        sys.fs (sys.proc !p))
  | replaced (p : Bool) (j : ℕ) (hp : (sys.proc p).phase = .exited 0)
      (hq : Renamed bufsiz (args !p) j [] (putBoth s r p).text sys.fs (sys.proc !p))
  | done (p : Bool) (h : ∀ q, (sys.proc q).phase = .exited 0)
      (hcontent : sys.fs.content fname = some (putBoth s r p).text)

/-! ### One step -/

theorem step_failed (h : (sys.proc p).phase = .exiting 1 ∨ (sys.proc p).phase = .exited 1)
    (q : Bool) : Progress T bufsiz args fname s r (sys.step T bufsiz args q) := by
  rcases eq_or_ne p q with rfl | hpq
  · refine .failed p ?_
    rw [Sys.step_proc_self, Tool.step]
    split
    · exact h
    · rename_i hexited
      rcases h with h | h
      · split
        · rw [flush_phase]
          exact .inl h
        · rw [Tool.action, h]
          exact .inr rfl
      · rw [h] at hexited
        exact absurd rfl hexited
  · refine .failed p ?_
    rw [Sys.step_proc_of_ne hpq]
    exact h

/-- The process whose step it is fails. -/
theorem progress_of_exiting
    (h : (T.step bufsiz (args p) p sys.fs (sys.proc p)).2.phase = .exiting 1) :
    Progress T bufsiz args fname s r (sys.step T bufsiz args p) :=
  .failed p (.inl (by rw [Sys.step_proc_self]; exact h))

theorem holding_of_setLock (hadd : Adding T bufsiz args fname s r) {k i : ℕ} {fs₁ : Files Bool}
    (hdir : sys.fs.dir fname = some k) (hdata : sys.fs.data k = s.text)
    (hleft : ∀ p, (T.leftover sys.fs).length ≤ (s.put (r p)).text.length)
    (hq : Early T fname sys.fs (sys.proc !p)) (hlock : sys.fs.dir T.lockfname = some i)
    (hset : sys.fs.setLock p i = some fs₁)
    (hstep : T.step bufsiz (args p) p sys.fs (sys.proc p) =
      (fs₁, .fresh .prompt (some k) (some i))) :
    Progress T bufsiz args fname s r (sys.step T bufsiz args p) := by
  obtain ⟨hdir₁, hdata₁, -⟩ := FileSystem.setLock_eq hset
  have hfs : (sys.step T bufsiz args p).fs = fs₁ := by
    rw [Sys.step_fs, hstep]
  have hlock₁ : fs₁.dir T.lockfname = some i := by
    rw [hdir₁]
    exact hlock
  have hne : some k ≠ some i := by
    intro heq
    rw [heq] at hdir
    exact hadd.fname_ne (sys.fs.isDir.inj _ _ i hdir hlock)
  have hold : (some k).map fs₁.data = some s.text := by
    rw [hdata₁, Option.map_some, hdata]
  have hleft₁ : fs₁.data i = T.leftover sys.fs := by
    rw [Tool.leftover, FileSystem.content, hlock, hdata₁]
    rfl
  have hworking := @Working.fresh _ T bufsiz (args p) fs₁ i 0 (some k) (s.put (r p)).text hlock₁ hne
    (fun _ => hadd.passphrase_ne p) (by rw [hold]; exact hadd.update p)
  rw [hold, hleft₁] at hworking
  refine .holding p i (T.leftover sys.fs) (hleft p) ?_ ?_ ?_
  · rw [hfs]
    exact FileSystem.setLock_owner hset
  · rw [hfs, Sys.step_proc_self, hstep]
    exact .inr ⟨some k, rfl, hworking⟩
  · rw [hfs, Sys.step_proc_of_ne (Bool.not_ne_self p)]
    exact hq.congr hdir₁

theorem step_idle (hadd : Adding T bufsiz args fname s r) {k : ℕ}
    (hdir : sys.fs.dir fname = some k) (hdata : sys.fs.data k = s.text)
    (hleft : ∀ p, (T.leftover sys.fs).length ≤ (s.put (r p)).text.length)
    (hearly : ∀ p, Early T fname sys.fs (sys.proc p)) (hsafe : sys.Safe args p) :
    Progress T bufsiz args fname s r (sys.step T bufsiz args p) := by
  have hp := hearly p
  rw [← hadd.fname_eq p] at hp
  rcases hp.step T bufsiz (args p) p with
    hfails | ⟨hnext, hfs⟩ | ⟨k', i, hlock, hk', hstep⟩ | ⟨k', i, fs₁, hproc, hlock, hset, hstep⟩
  · exact progress_of_exiting hfails
  · refine .idle k ?_ ?_ ?_ fun q => ?_
    · rw [Sys.step_fs, hfs]
      exact hdir
    · rw [Sys.step_fs, hfs]
      exact hdata
    · rw [Sys.step_fs, hfs]
      exact hleft
    · rw [Sys.step_fs, hfs]
      rcases eq_or_ne q p with rfl | hq
      · rw [Sys.step_proc_self, ← hadd.fname_eq q]
        exact hnext
      · rw [Sys.step_proc_of_ne hq]
        exact hearly q
  · have hopened := opened_openCreate hlock
    obtain ⟨hdirlock, -⟩ := FileSystem.openCreate_eq hlock
    have hfs : (sys.step T bufsiz args p).fs = (sys.fs.openCreate T.lockfname).2 := by
      rw [Sys.step_fs, hstep]
    refine .idle k ?_ ?_ ?_ fun q => ?_
    · rw [hfs, hopened.dir fname hadd.fname_ne]
      exact hdir
    · rw [hfs, hopened.data fname k hdir]
      exact hdata
    · rw [hfs, hopened.leftover]
      exact hleft
    · rw [hfs]
      rcases eq_or_ne q p with rfl | hq
      · rw [Sys.step_proc_self, hstep]
        refine .setLock ?_ hdirlock
        rw [hopened.dir fname hadd.fname_ne, ← hadd.fname_eq q]
        exact hk'
      · rw [Sys.step_proc_of_ne hq]
        exact (hearly q).opened hopened hadd.fname_ne
  · -- it gets the lock, and by `Safe` it has opened the file under the name
    have hcurrent : sys.fs.dir (args p).fname = k' := by
      have hsame := hsafe.1
      rw [hproc] at hsame
      refine hsame rfl ?_
      rw [show (Proc.fresh .setLock k' (some i)).tofp = some i from rfl, Option.bind_some, hset]
      rfl
    rw [hadd.fname_eq, hdir] at hcurrent
    subst hcurrent
    exact holding_of_setLock hadd hdir hdata hleft (hearly _) hlock hset hstep

/-- The process that has the lock goes on. -/
theorem step_holding_self (hadd : Adding T bufsiz args fname s r) {i : ℕ} {left : List UInt8}
    (hleft : left.length ≤ (s.put (r p)).text.length) (howner : sys.fs.owner i = some p)
    (hp : Working T bufsiz (args p) (some s.text) i left 0 (s.put (r p)).text sys.fs (sys.proc p))
    (hq : Early T fname sys.fs (sys.proc !p)) :
    Progress T bufsiz args fname s r (sys.step T bufsiz args p) := by
  have hname : (args p).fname ≠ T.lockfname := by
    rw [hadd.fname_eq]
    exact hadd.fname_ne
  have hnext := hp.next_step (p := p) hadd.pos hname
  cases hnext with
  | working h hdir hdata howner' hlt =>
      refine .holding p i left hleft ?_ (.inl ?_) ?_
      · rw [Sys.step_fs, howner']
        exact howner
      · rw [Sys.step_fs, Sys.step_proc_self]
        exact h
      · rw [Sys.step_fs, Sys.step_proc_of_ne (Bool.not_ne_self p)]
        exact hq.congr hdir
  | renamed h hstatus hdir hdata =>
      refine .renamed p i left hleft ?_ ?_
      · rw [Sys.step_fs, Sys.step_proc_self]
        exact h
      · rw [Sys.step_fs, Sys.step_proc_of_ne (Bool.not_ne_self p)]
        refine hq.renamed hadd.fname_ne hp.lock ?_
        rw [hdir, Function.update_of_ne hname.symm, Function.update_self]
  | exited hstatus => cases hstatus

/-- The other process does not get the lock. -/
theorem step_holding_other (hadd : Adding T bufsiz args fname s r) {i : ℕ} {left : List UInt8}
    (hleft : left.length ≤ (s.put (r p)).text.length) (howner : sys.fs.owner i = some p)
    (hp : Holds T bufsiz (args p) s.text i left (s.put (r p)).text sys.fs (sys.proc p))
    (hlock : sys.fs.dir T.lockfname = some i) (hq : Early T fname sys.fs (sys.proc !p)) :
    Progress T bufsiz args fname s r (sys.step T bufsiz args !p) := by
  have hfname := hadd.fname_eq !p
  have hearly := hq
  rw [← hfname] at hearly
  -- the files stay as they are
  have hstay : ∀ x, T.step bufsiz (args !p) (!p) sys.fs (sys.proc !p) = (sys.fs, x) →
      Early T fname sys.fs x → Progress T bufsiz args fname s r (sys.step T bufsiz args !p) := by
    intro x hstep hx
    have hfs : (sys.step T bufsiz args !p).fs = sys.fs := by
      rw [Sys.step_fs, hstep]
    refine .holding p i left hleft ?_ ?_ ?_
    · rw [hfs]
      exact howner
    · rw [hfs, Sys.step_proc_of_ne (Bool.not_ne_self p).symm]
      exact hp
    · rw [hfs, Sys.step_proc_self, hstep]
      exact hx
  rcases hearly.step T bufsiz (args !p) (!p) with
    hfails | ⟨hnext, hfs⟩ | ⟨k, j, hcreate, hk, hstep⟩ | ⟨k, j, fs₁, -, hlock', hset, -⟩
  · exact progress_of_exiting hfails
  · rw [hfname] at hnext
    exact hstay _ (Prod.ext hfs rfl) hnext
  · obtain ⟨hsame, hj⟩ := FileSystem.openCreate_of_some hlock
    rw [hsame] at hstep
    rw [hfname] at hk
    refine hstay _ hstep (.setLock hk ?_)
    rw [hj j hcreate]
    exact hlock
  · -- both have opened the same lock file
    rw [hlock] at hlock'
    obtain rfl := Option.some.inj hlock'
    rw [FileSystem.setLock_of_owner howner (Bool.not_ne_self p).symm] at hset
    cases hset

theorem step_prompt_self {i : ℕ} {left : List UInt8}
    {k : Option ℕ} (hleft : left.length ≤ (s.put (r p)).text.length)
    (howner : sys.fs.owner i = some p) (hproc : sys.proc p = .fresh .prompt k (some i))
    (hp : Working T bufsiz (args p) (some s.text) i left 0 (s.put (r p)).text sys.fs
      (.fresh .firstPass k (some i)))
    (hq : Early T fname sys.fs (sys.proc !p)) :
    Progress T bufsiz args fname s r (sys.step T bufsiz args p) := by
  rcases step_prompt T bufsiz (args p) p sys.fs (k := k) (i := some i) with
    hstep | ⟨-, hstep⟩
  · apply progress_of_exiting
    rw [hproc]
    exact phase_of_exiting hstep
  · rw [← hproc] at hstep
    have hfs : (sys.step T bufsiz args p).fs = sys.fs := by
      rw [Sys.step_fs, hstep]
    refine .holding p i left hleft ?_ (.inl ?_) ?_
    · rw [hfs]
      exact howner
    · rw [hfs, Sys.step_proc_self, hstep]
      exact hp
    · rw [hfs, Sys.step_proc_of_ne (Bool.not_ne_self p)]
      exact hq

theorem step_renamed_self (hadd : Adding T bufsiz args fname s r) {i : ℕ} {left : List UInt8}
    (hleft : left.length ≤ (s.put (r p)).text.length)
    (hp : Renamed bufsiz (args p) i left (s.put (r p)).text sys.fs (sys.proc p))
    (hq : Later T i sys.fs (sys.proc !p)) :
    Progress T bufsiz args fname s r (sys.step T bufsiz args p) := by
  obtain ⟨hphase, hdir, hnew, hdata⟩ := hp.step T p
  have hfile : sys.fs.dir fname = some i := by
    rw [← hadd.fname_eq p]
    exact hp.fname
  refine .committed p i ?_ ?_ ?_ ?_
  · rw [Sys.step_proc_self]
    exact hphase
  · rw [Sys.step_fs, hdir]
    exact hfile
  · rw [Sys.step_fs, hnew, List.drop_eq_nil_of_le hleft, List.append_nil]
  · rw [Sys.step_fs, Sys.step_proc_of_ne (Bool.not_ne_self p)]
    exact hq.congr hadd.fname_ne hfile hdir hdata

/-- The other process, before it begins to copy. -/
theorem later_step (hadd : Adding T bufsiz args fname s r) {i : ℕ}
    (hfile : sys.fs.dir fname = some i) (hq : Later T i sys.fs (sys.proc q))
    (hsafe : sys.Safe args q) (hphase : (sys.proc q).phase ≠ .firstPass) :
    (T.step bufsiz (args q) q sys.fs (sys.proc q)).2.phase = .exiting 1 ∨
      Later T i (sys.step T bufsiz args q).fs ((sys.step T bufsiz args q).proc q) ∧
        (sys.step T bufsiz args q).fs.dir fname = some i ∧
        (sys.step T bufsiz args q).fs.data i = sys.fs.data i := by
  have hfname := hadd.fname_eq q
  have hne := hadd.fname_ne
  subst hfname
  rw [Sys.step_proc_self, Sys.step_fs]
  refine hq.step T bufsiz (args q) q hne hfile (fun k j fs₁ hproc hset => ?_) hphase
  have hsame := hsafe.1
  rw [hproc] at hsame
  refine hsame rfl ?_
  rw [show (Proc.fresh .setLock k (some j)).tofp = some j from rfl, Option.bind_some, hset]
  rfl

theorem step_renamed_other (hadd : Adding T bufsiz args fname s r) {i : ℕ} {left : List UInt8}
    (hleft : left.length ≤ (s.put (r p)).text.length)
    (hp : Renamed bufsiz (args p) i left (s.put (r p)).text sys.fs (sys.proc p))
    (hq : Later T i sys.fs (sys.proc !p)) (hsafe : sys.Safe args !p) :
    Progress T bufsiz args fname s r (sys.step T bufsiz args !p) := by
  have hfile : sys.fs.dir fname = some i := by
    rw [← hadd.fname_eq p]
    exact hp.fname
  have hphase : (sys.proc !p).phase ≠ .firstPass := by
    intro hread
    have hclosed := hsafe.2 hread
    rw [Bool.not_not] at hclosed
    exact hclosed hp.phase
  rcases later_step hadd hfile hq hsafe hphase with hfails | ⟨hlater, hdir, hdata⟩
  · exact progress_of_exiting hfails
  · refine .renamed p i left hleft ?_ hlater
    rw [Sys.step_proc_of_ne (Bool.not_ne_self p).symm]
    refine ⟨hp.phase, ?_, hp.output.congr hdata rfl rfl rfl, hp.pending, hp.short⟩
    rw [hadd.fname_eq]
    exact hdir

/-- The second process goes on with its update. -/
theorem step_replacing (hadd : Adding T bufsiz args fname s r) {j : ℕ}
    (hp : (sys.proc p).phase = .exited 0)
    (hq : Working T bufsiz (args !p) (some (s.put (r p)).text) j [] 0 (putBoth s r p).text
      sys.fs (sys.proc !p)) :
    Progress T bufsiz args fname s r (sys.step T bufsiz args !p) := by
  have hname : (args !p).fname ≠ T.lockfname := by
    rw [hadd.fname_eq]
    exact hadd.fname_ne
  have hp' : ((sys.step T bufsiz args !p).proc p).phase = .exited 0 := by
    rw [Sys.step_proc_of_ne (Bool.not_ne_self p).symm]
    exact hp
  have hnext := hq.next_step (p := !p) hadd.pos hname
  cases hnext with
  | working h hdir hdata howner hlt =>
      refine .replacing p j hp' ?_
      rw [Sys.step_fs, Sys.step_proc_self]
      exact h
  | renamed h hstatus hdir hdata =>
      refine .replaced p j hp' ?_
      rw [Sys.step_fs, Sys.step_proc_self]
      exact h
  | exited hstatus => cases hstatus

theorem step_committed_other (hadd : Adding T bufsiz args fname s r) {i : ℕ}
    (hp : (sys.proc p).phase = .exited 0) (hdir : sys.fs.dir fname = some i)
    (hdata : sys.fs.data i = (s.put (r p)).text) (hq : Later T i sys.fs (sys.proc !p))
    (hsafe : sys.Safe args !p) :
    Progress T bufsiz args fname s r (sys.step T bufsiz args !p) := by
  by_cases hphase : (sys.proc !p).phase = .firstPass
  · -- it begins to copy the file that the first process has left
    have hworking : ∃ j, Working T bufsiz (args !p) (some (s.put (r p)).text) j [] 0
        (putBoth s r p).text sys.fs (sys.proc !p) := by
      generalize sys.proc (!p) = x at hq hphase ⊢
      cases hq with
      | @ready phase j _ hlock hempty =>
          obtain rfl : phase = .firstPass := hphase
          have hne : some i ≠ some j := by
            intro heq
            rw [← heq] at hlock
            exact hadd.fname_ne (sys.fs.isDir.inj _ _ i hdir hlock)
          have hold : (some i).map sys.fs.data = some (s.put (r p)).text := by
            rw [Option.map_some, hdata]
          have hworking := @Working.fresh _ T bufsiz (args !p) sys.fs j 0 (some i)
            (putBoth s r p).text hlock hne (fun _ => hadd.passphrase_ne !p)
            (by rw [hold]; exact hadd.update_put p)
          rw [hold, hempty] at hworking
          exact ⟨j, hworking⟩
      | _ => cases hphase
    obtain ⟨j, hworking⟩ := hworking
    exact step_replacing hadd hp hworking
  · rcases later_step hadd hdir hq hsafe hphase with hfails | ⟨hlater, hdir', hdata'⟩
    · exact progress_of_exiting hfails
    · refine .committed p i ?_ hdir' (hdata'.trans hdata) hlater
      rw [Sys.step_proc_of_ne (Bool.not_ne_self p).symm]
      exact hp

theorem step_replaced (hadd : Adding T bufsiz args fname s r) {j : ℕ}
    (hp : (sys.proc p).phase = .exited 0)
    (hq : Renamed bufsiz (args !p) j [] (putBoth s r p).text sys.fs (sys.proc !p)) :
    Progress T bufsiz args fname s r (sys.step T bufsiz args !p) := by
  obtain ⟨hphase, hdir, hnew, -⟩ := hq.step T !p
  have hfile : sys.fs.dir fname = some j := by
    rw [← hadd.fname_eq !p]
    exact hq.fname
  refine .done p (fun q => ?_) ?_
  · rcases Bool.eq_or_eq_not q p with rfl | rfl
    · rw [Sys.step_proc_of_ne (Bool.not_ne_self q).symm]
      exact hp
    · rw [Sys.step_proc_self]
      exact hphase
  · rw [Sys.step_fs, FileSystem.content, hdir, hfile, Option.map_some, hnew, List.drop_nil,
      List.append_nil]

/-- A safe operation keeps the invariant. -/
theorem Progress.step (hadd : Adding T bufsiz args fname s r)
    (h : Progress T bufsiz args fname s r sys) (q : Bool) (hsafe : sys.Safe args q) :
    Progress T bufsiz args fname s r (sys.step T bufsiz args q) := by
  -- a process that has come to its end does nothing
  have hstay : ∀ {status : ℕ}, (sys.proc q).phase = .exited status →
      Progress T bufsiz args fname s r (sys.step T bufsiz args q) := by
    intro status hexited
    rw [Sys.step_exited hexited]
    exact h
  cases h with
  | failed p h => exact step_failed h q
  | idle k hdir hdata hleft hearly => exact step_idle hadd hdir hdata hleft hearly hsafe
  | holding p i left hleft howner hp hq =>
      rcases Bool.eq_or_eq_not q p with rfl | rfl
      · rcases hp with hp | ⟨k, hproc, hp⟩
        · exact step_holding_self hadd hleft howner hp hq
        · exact step_prompt_self hleft howner hproc hp hq
      · have hlock : sys.fs.dir T.lockfname = some i := by
          rcases hp with hp | ⟨k, -, hp⟩
          · exact hp.lock
          · exact hp.lock
        exact step_holding_other hadd hleft howner hp hlock hq
  | renamed p i left hleft hp hq =>
      rcases Bool.eq_or_eq_not q p with rfl | rfl
      · exact step_renamed_self hadd hleft hp hq
      · exact step_renamed_other hadd hleft hp hq hsafe
  | committed p i hp hdir hdata hq =>
      rcases Bool.eq_or_eq_not q p with rfl | rfl
      · exact hstay hp
      · exact step_committed_other hadd hp hdir hdata hq hsafe
  | replacing p j hp hq =>
      rcases Bool.eq_or_eq_not q p with rfl | rfl
      · exact hstay hp
      · exact step_replacing hadd hp hq
  | replaced p j hp hq =>
      rcases Bool.eq_or_eq_not q p with rfl | rfl
      · exact hstay hp
      · exact step_replaced hadd hp hq
  | done p h hcontent => exact hstay (h q)

end Progress

end I2util
