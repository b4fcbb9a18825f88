import I2util.Tools.Visible

/-!
Runs that fail, and files that are there already.

Only the rename changes what the name of the file shows, and a run that has reached it
succeeds. With `-n` the file must not exist; the programs take it not to exist when it
cannot be opened for update.
-/

namespace I2util

variable {P : Type} [DecidableEq P]

/-- A run that fails leaves the file as it was, and a run that is to create a file
that exists fails. -/
structure Args.Untouched (a : Args) (fs : Files P) (status : ℕ) (fs' : Files P) : Prop where
  failed : status ≠ 0 → fs'.content a.fname = fs.content a.fname
  existing : a.doCreate = true → fs.content a.fname ≠ none →
    status ≠ 0 ∧ fs'.content a.fname = fs.content a.fname

namespace Tool

variable (T : Tool) (a : Args) (p : P)

def LockFree (fs : Files P) : Prop :=
  ∀ i, fs.dir T.lockfname = some i →
    fs.access i = true ∧ (fs.owner i = none ∨ fs.owner i = some p)

/-- A file that cannot be opened is to be created anew, and nothing else is in the
way. -/
structure Replaces (fs : Files P) : Prop where
  doCreate : a.doCreate = true
  doDelete : a.doDelete = false
  unopened : ∃ k, fs.dir a.fname = some k ∧ fs.access k = false
  short : ∀ n ∈ T.maxIdentity, a.idname.length ≤ n
  lock : T.LockFree p fs
  prompt : promptLength a.idname ≤ T.promptSize
  record : ∃ value, a.passphrase = some value ∧ 0 ≤ (T.format.write a.idname value).1

/-- The file is as it was in `fs₀`, and `tofp` is the lock file. -/
structure Aside (fs₀ fs : Files P) (s : Proc) : Prop where
  content : fs.content a.fname = fs₀.content a.fname
  tofp : ∀ i, s.tofp = some i → fs.dir T.lockfname = some i

end Tool

/-! ### A run that fails -/

section Fails

variable {T : Tool} {bufsiz : ℕ} {a : Args} {p : P} {fs₀ fs fs' : Files P} {s : Proc}

open Tool

omit [DecidableEq P] in
theorem content_openCreate {n m : Name} (hne : m ≠ n) :
    (fs.openCreate n).2.content m = fs.content m := by
  rw [FileSystem.openCreate]
  split
  · split <;> rfl
  · show ((Function.update fs.dir n (some fs.used)) m).map _ = _
    rw [Function.update_of_ne hne]
    cases hm : fs.dir m with
    | none => simp [FileSystem.content, hm]
    | some j =>
        have hj : j ≠ fs.used := Nat.ne_of_lt (fs.isDir.lt m j hm)
        simp [FileSystem.content, FileSystem.create, hm, hj]

omit [DecidableEq P] in
/-- Writing to the lock file does not change the file. -/
theorem Tool.Aside.flush (hname : a.fname ≠ T.lockfname) (h : T.Aside a fs₀ fs s) (n : ℕ) :
    T.Aside a fs₀ (flush n fs s).1 (flush n fs s).2 := by
  have htofp : (I2util.flush n fs s).2.tofp = s.tofp := by
    rw [I2util.flush]
    split <;> rfl
  constructor
  case content =>
    rw [← h.content, FileSystem.content, FileSystem.content, flush_dir]
    cases hj : fs.dir a.fname with
    | none => rfl
    | some j =>
        have hne : s.tofp ≠ some j := fun heq =>
          hname (fs.isDir.inj _ _ j hj (h.tofp j heq))
        rw [Option.map_some, Option.map_some, flush_data_of_ne n fs s hne]
  case tofp =>
    rw [htofp, flush_dir]
    exact h.tofp

omit [DecidableEq P] in
theorem Tool.Aside.congr {s' : Proc} (h : T.Aside a fs₀ fs s) (hdir : fs'.dir = fs.dir)
    (hdata : fs'.data = fs.data) (htofp : s'.tofp = s.tofp) : T.Aside a fs₀ fs' s' where
  content := by
    rw [← h.content, FileSystem.content, FileSystem.content, hdir, hdata]
  tofp := by
    rw [htofp, hdir]
    exact h.tofp

omit [DecidableEq P] in
theorem readPass_tofp (next : ℤ → Phase) : (T.readPass a next fs s).tofp = s.tofp := by
  have hread : (readStep T.format a.idname fs s).1.tofp = s.tofp := by
    rw [readStep]
    split
    · rfl
    · dsimp only
      split <;> rfl
  rw [Tool.readPass]
  dsimp only
  split <;> exact hread

theorem writeRecord_tofp : (T.writeRecord a s).tofp = s.tofp := by
  rw [Tool.writeRecord]
  split
  · rfl
  · split
    · rfl
    · dsimp only
      split <;> rfl

omit [DecidableEq P] in
theorem Tool.Aside.openLock (hname : a.fname ≠ T.lockfname) (h : T.Aside a fs₀ fs s) :
    T.Aside a fs₀ (T.openLock fs s).1 (T.openLock fs s).2 := by
  have hcontent : (fs.openCreate T.lockfname).2.content a.fname = fs₀.content a.fname :=
    (content_openCreate hname).trans h.content
  rw [Tool.openLock]
  dsimp only
  split
  · refine ⟨hcontent, fun i hi => ?_⟩
    have hdir := h.tofp i hi
    rw [(FileSystem.openCreate_of_some hdir).1]
    exact hdir
  · exact ⟨hcontent, fun i hi => (FileSystem.openCreate_eq hi).1⟩

variable (bufsiz p) in
/-- Every step but the rename leaves the file aside. -/
theorem Tool.Aside.step (hname : a.fname ≠ T.lockfname) (h : T.Aside a fs₀ fs s)
    (hrenamed : ¬s.phase.IsRenamed) :
    (T.step bufsiz a p fs s).2.phase.IsRenamed ∨
      T.Aside a fs₀ (T.step bufsiz a p fs s).1 (T.step bufsiz a p fs s).2 := by
  rw [Tool.step]
  split
  · exact .inr h
  · split
    · exact .inr (h.flush hname bufsiz)
    · rw [Tool.action]
      split
      · rename_i hphase
        refine .inr (h.congr rfl rfl ?_)
        rw [Tool.openKey]
        split <;> rfl
      · exact .inr (h.openLock hname)
      · rw [Tool.setLock]
        split
        · exact .inr (h.congr rfl rfl rfl)
        · rename_i hset
          obtain ⟨i, -, hset⟩ := Option.bind_eq_some_iff.mp hset
          obtain ⟨hdir, hdata, -⟩ := FileSystem.setLock_eq hset
          exact .inr (h.congr hdir hdata rfl)
      · exact .inr (h.congr rfl rfl rfl)
      · exact .inr (h.congr rfl rfl (readPass_tofp _))
      · exact .inr (h.congr rfl rfl writeRecord_tofp)
      · exact .inr (h.congr rfl rfl (readPass_tofp _))
      · cases hfrom : s.fromfp with
        | none => exact .inr (h.congr rfl rfl rfl)
        | some j =>
            exact .inr (h.congr (FileSystem.close_dir fs p j) (FileSystem.close_data fs p j) rfl)
      · exact .inl (.inl rfl)
      · rename_i hphase
        exact absurd (.inl hphase) hrenamed
      · have hflush := h.flush hname s.buf.length
        exact .inr (hflush.congr rfl rfl rfl)
      · exact .inr h

variable (bufsiz p) in
theorem Tool.Aside.run (hname : a.fname ≠ T.lockfname) (h : T.Aside a fs₀ fs s) (n : ℕ) :
    (T.run bufsiz a p n fs s).2.phase.IsRenamed ∨
      T.Aside a fs₀ (T.run bufsiz a p n fs s).1 (T.run bufsiz a p n fs s).2 := by
  induction n generalizing fs s with
  | zero => exact .inr h
  | succ n ih =>
      rw [run_succ]
      by_cases hrenamed : s.phase.IsRenamed
      · exact .inl (isRenamed_run (isRenamed_step hrenamed) n)
      · rcases h.step bufsiz p hname hrenamed with hdone | hstep
        · exact .inl (isRenamed_run hdone n)
        · exact ih hstep

/-- A run that fails leaves the file as it was. -/
theorem Tool.Exits.content_of_failed (hname : a.fname ≠ T.lockfname) {status : ℕ}
    (h : T.Exits bufsiz a p fs .start status fs') (hstatus : status ≠ 0) :
    fs'.content a.fname = fs.content a.fname := by
  obtain ⟨n, s', hrun, hphase⟩ := h
  have hstart : T.Aside a fs fs .start := ⟨rfl, fun i hi => by cases hi⟩
  have hend := hstart.run bufsiz p hname n
  rw [hrun] at hend
  rcases hend with hrenamed | haside
  · rcases hrenamed with hno | hzero
    · rw [hphase] at hno
      cases hno
    · rw [hphase] at hzero
      exact absurd (Phase.exited.inj hzero) hstatus
  · exact haside.content

end Fails

/-! ### A run that is to create the file -/

section Creates

variable {T : Tool} {bufsiz : ℕ} {a : Args} {p : P} {fs fs' : Files P}

open Tool

theorem lockFree_iff :
    T.LockFree p fs ↔ ∃ i fs₁, (fs.openCreate T.lockfname).1 = some i ∧
      (fs.openCreate T.lockfname).2.setLock p i = some fs₁ := by
  rw [LockFree, FileSystem.openCreate]
  cases hdir : fs.dir T.lockfname with
  | none =>
      have howner : (fs.create T.lockfname).owner fs.used = none := Function.update_self ..
      exact iff_of_true (fun i hi => by cases hi)
        ⟨fs.used, _, rfl, FileSystem.setLock_of_none howner⟩
  | some i =>
      dsimp only
      constructor
      · intro hfree
        obtain ⟨haccess, howner⟩ := hfree i rfl
        rw [if_pos haccess]
        rcases howner with hnone | hself
        · exact ⟨i, _, rfl, FileSystem.setLock_of_none hnone⟩
        · exact ⟨i, fs, rfl, by simp [FileSystem.setLock, hself]⟩
      · rintro ⟨j, fs₁, hopen, hset⟩ k hk
        obtain rfl := Option.some.inj hk
        split at hopen
        · rename_i haccess
          obtain rfl := Option.some.inj hopen
          rw [if_pos haccess] at hset
          refine ⟨haccess, ?_⟩
          cases howner : fs.owner i with
          | none => exact .inl rfl
          | some q =>
              by_cases hq : q = p
              · exact .inr (congrArg some hq)
              · rw [FileSystem.setLock_of_owner howner hq] at hset
                cases hset
        · cases hopen

/-- Without a file to read the new record is all there is. -/
theorem Format.update_none (F : Format) (id : List UInt8) (value : Option (List UInt8)) :
    (∃ new, F.update none id value = some (0, new)) ↔
      ∃ v, value = some v ∧ 0 ≤ (F.write id v).1 := by
  cases value with
  | none =>
      refine iff_of_false ?_ ?_
      · rintro ⟨new, hnew⟩
        cases hnew
      · rintro ⟨v, hv, -⟩
        cases hv
  | some v =>
      have hupdate : F.update none id (some v) =
          if (F.write id v).1 < 0 then some (1, (F.write id v).2)
          else some (0, (F.write id v).2) := by
        by_cases hneg : (F.write id v).1 < 0
        · rw [if_pos hneg]
          simp only [Format.update, Format.read, Option.bind_some, if_pos hneg]
          rfl
        · rw [if_neg hneg]
          simp only [Format.update, Format.read, Option.bind_some, if_neg hneg]
          simp [Format.copyRest, Format.read]
      rw [hupdate]
      constructor
      · rintro ⟨new, hnew⟩
        split at hnew
        · cases hnew
        · rename_i hneg
          exact ⟨v, rfl, not_lt.mp hneg⟩
      · rintro ⟨w, hw, hle⟩
        cases hw
        exact ⟨_, if_neg (not_lt.mpr hle)⟩

/-- A run that is to create a file that cannot be opened succeeds exactly when nothing
else is in the way. -/
theorem exits_zero_iff (hpos : 0 < bufsiz) (hname : a.fname ≠ T.lockfname)
    (hcreate : a.doCreate = true) {k : ℕ} (hk : fs.dir a.fname = some k)
    (haccess : fs.access k = false) :
    (∃ fs', T.Exits bufsiz a p fs .start 0 fs') ↔ T.Replaces a p fs := by
  have hopen : fs.openFile a.fname = none := by
    rw [FileSystem.openFile, hk]
    simp [haccess]
  have hold : oldText a fs = none := by rw [oldText, hopen, Option.map_none]
  constructor
  · rintro ⟨fs', h⟩
    obtain ⟨haccepts, hlock⟩ := h.accepts
    have hupdate := h.update hpos hname
    rw [hold] at hupdate
    obtain ⟨v, hv, hle⟩ := (T.format.update_none a.idname a.value).mp ⟨_, hupdate⟩
    have hadd : a.doDelete = false := by
      rw [← Bool.not_eq_true]
      intro hdel
      rw [Args.value, if_pos hdel] at hv
      cases hv
    rw [Args.value, if_neg (by simp [hadd])] at hv
    have hprompt := haccepts.prompted
    rw [Tool.afterPrompt, if_neg (by simp [hadd])] at hprompt
    refine ⟨hcreate, hadd, ⟨k, hk, haccess⟩, ?_, lockFree_iff.mpr hlock, ?_, v, hv, hle⟩
    · intro n hn
      exact not_lt.mp fun hlt => haccepts.short ⟨n, hn, hlt⟩
    · by_contra hlong
      rw [if_pos (not_le.mp hlong)] at hprompt
      cases hprompt
  · intro h
    obtain ⟨v, hv, hle⟩ := h.record
    obtain ⟨i, fs₁, hlock, hset⟩ := lockFree_iff.mp h.lock
    have hvalue : a.value = some v := by rw [Args.value, if_neg (by simp [h.doDelete]), hv]
    have haccepts : T.Accepts a fs := by
      refine ⟨?_, ?_, ?_⟩
      · rintro ⟨n, hn, hlt⟩
        exact not_le.mpr hlt (h.short n hn)
      · simp [Tool.afterOpen, hopen, hcreate]
      · rw [Tool.afterPrompt, if_neg (by simp [h.doDelete]), if_neg (not_lt.mpr h.prompt),
          if_neg (by simp [hv])]
    obtain ⟨new, hupdate⟩ := (T.format.update_none a.idname a.value).mpr ⟨v, hvalue, hle⟩
    rw [← hold] at hupdate
    obtain ⟨fs', hexits, -⟩ := haccepts.exits hpos hname hlock hset hupdate
    exact ⟨fs', hexits⟩

/-- A run leaves a file that it must not touch as it was, if and only if the file is not
one that `-n` replaces. -/
theorem untouched_iff (T : Tool) (a : Args) (p : P) (fs : Files P) (hpos : 0 < bufsiz)
    (hname : a.fname ≠ T.lockfname) :
    ∃ status fs', T.Exits bufsiz a p fs .start status fs' ∧
      (a.Untouched fs status fs' ↔ ¬T.Replaces a p fs) := by
  obtain ⟨status, fs', hexits⟩ := exits_start T a p fs hpos hname
  refine ⟨status, fs', hexits, ?_, ?_⟩
  · intro huntouched hreplaces
    obtain ⟨k, hk, haccess⟩ := hreplaces.unopened
    obtain ⟨fs'', hzero⟩ := (exits_zero_iff hpos hname hreplaces.doCreate hk haccess).mpr hreplaces
    have hexists : fs.content a.fname ≠ none := by simp [FileSystem.content, hk]
    exact (huntouched.existing hreplaces.doCreate hexists).1 (hexits.unique hzero).1
  · intro hno
    refine ⟨hexits.content_of_failed hname, fun hcreate hexists => ?_⟩
    have hstatus : status ≠ 0 := by
      rintro rfl
      obtain ⟨k, hk⟩ : ∃ k, fs.dir a.fname = some k := by
        cases hk : fs.dir a.fname with
        | none => simp [FileSystem.content, hk] at hexists
        | some k => exact ⟨k, rfl⟩
      cases haccess : fs.access k with
      | false => exact hno ((exits_zero_iff hpos hname hcreate hk haccess).mp ⟨fs', hexits⟩)
      | true =>
          -- the file is opened, and `-n` stops the run
          have hopened := hexits.accepts.1.opened
          have hopen : fs.openFile a.fname = some k := by simp [FileSystem.openFile, hk, haccess]
          simp [Tool.afterOpen, hopen, hcreate] at hopened
    exact ⟨hstatus, hexits.content_of_failed hname hstatus⟩

end Creates

/-! ### A file that is replaced -/

def readOnly (n : Name) (bytes : List UInt8) : Files Unit :=
  { FileSystem.single n bytes with access := fun _ => false }

def creation (fname value : List UInt8) : Args := ⟨fname, true, false, ascii "b", some value⟩

theorem untouched_iff_creation :
    ∃ status fs', pfstore.Exits 4096 (creation (ascii "pf") (ascii "c")) ()
        (readOnly (ascii "pf") (ascii "a\t61\n")) .start status fs' ∧
      ((creation (ascii "pf") (ascii "c")).Untouched
          (readOnly (ascii "pf") (ascii "a\t61\n")) status fs' ↔
        ¬pfstore.Replaces (creation (ascii "pf") (ascii "c")) ()
          (readOnly (ascii "pf") (ascii "a\t61\n"))) :=
  untouched_iff pfstore _ () _ (Nat.zero_lt_of_lt (by decide : 1 < 4096)) (by decide)

/-- The old file is lost: it has the new record only. -/
theorem not_untouched_creation :
    ∃ fs', pfstore.Exits 4096 (creation (ascii "pf") (ascii "c")) ()
        (readOnly (ascii "pf") (ascii "a\t61\n")) .start 0 fs' ∧
      fs'.content (ascii "pf") = some (ascii "b\t63\n") ∧
      ¬(creation (ascii "pf") (ascii "c")).Untouched
        (readOnly (ascii "pf") (ascii "a\t61\n")) 0 fs' := by
  refine ⟨(pfstore.run 4096 (creation (ascii "pf") (ascii "c")) () 10
    (readOnly (ascii "pf") (ascii "a\t61\n")) .start).1, ⟨10, _, rfl, rfl⟩, rfl, fun h => ?_⟩
  exact (h.existing rfl (by decide)).1 rfl

end I2util
