import I2util.Tools.Committed

/-!
Any number of processes on the files of one directory, in any order of their operations.

A process writes to its lock file only while it has the lock on it, and no other process
does so at the same time. The names may change under it, and other processes may have the
same file open.
-/

namespace I2util

def Phase.locked : Phase → Bool
  | .prompt | .firstPass | .writeRecord | .secondPass | .closeFrom | .rename | .closeTo => true
  | _ => false

theorem Phase.isExited_of_locked {phase : Phase} (h : phase.locked = true) :
    phase.isExited = false := by
  cases phase <;> first | rfl | cases h

/-- The process has got the lock, and has not come to its end. A run that fails may still
have something to write. -/
structure Proc.Inside (s : Proc) : Prop where
  running : s.phase.isExited = false
  began : s.phase.locked = true ∨ s.buf ≠ [] ∨ s.written ≠ 0

variable {P : Type} [DecidableEq P] {T : Tool} {bufsiz : ℕ} {a : Args} {args : P → Args}
  {p q : P} {fs fs' : Files P} {s s' : Proc} {sys : Sys P} {i j k n : ℕ}

structure Proc.Waits (s : Proc) : Prop where
  empty : s.phase = .openKey ∨ s.phase = .openLock ∨ s.phase = .setLock →
    s.buf = [] ∧ s.written = 0
  closed : s.phase = .openKey ∨ s.phase = .openLock → s.tofp = none

/-- How one process stands to the files: it has the lock while it is inside, and the file
that it reads is not the one that it writes, nor is that the lock file. -/
structure Held (T : Tool) (p : P) (fs : Files P) (s : Proc) : Prop where
  owns : ∀ i, s.tofp = some i → s.Inside → fs.owner i = some p
  target : ∀ i, s.tofp = some i → i < fs.used
  source : ∀ k, s.fromfp = some k → k < fs.used ∧ fs.dir T.lockfname ≠ some k ∧ s.tofp ≠ some k
  waits : s.Waits

/-- What a step of one process leaves as it is for the others. -/
structure Frame (T : Tool) (p : P) (fs : Files P) (s : Proc) (fs' : Files P) : Prop where
  used : fs.used ≤ fs'.used
  lockfname : ∀ k < fs.used, fs.dir T.lockfname ≠ some k → fs'.dir T.lockfname ≠ some k
  owner : ∀ i < fs.used, ∀ q, q ≠ p → fs.owner i = some q → fs'.owner i = some q
  data : ∀ i < fs.used, ¬(s.tofp = some i ∧ s.Inside) → fs'.data i = fs.data i

omit [DecidableEq P] in
theorem Frame.refl (T : Tool) (p : P) (fs : Files P) (s : Proc) : Frame T p fs s fs :=
  ⟨Nat.le_refl _, fun _ _ h => h, fun _ _ _ _ h => h, fun _ _ _ => rfl⟩

omit [DecidableEq P] in
/-- The step of another process keeps what holds. -/
theorem Held.frame (h : Held T q fs s) (hqp : q ≠ p) (hframe : Frame T p fs s' fs') :
    Held T q fs' s where
  owns i hi hin := hframe.owner i (h.target i hi) q hqp (h.owns i hi hin)
  target i hi := Nat.lt_of_lt_of_le (h.target i hi) hframe.used
  source k hk := by
    obtain ⟨hlt, hdir, hto⟩ := h.source k hk
    exact ⟨Nat.lt_of_lt_of_le hlt hframe.used, hframe.lockfname k hlt hdir, hto⟩
  waits := h.waits

/-! ### Writing out -/

omit [DecidableEq P] in
theorem flush_tofp : (flush n fs s).2.tofp = s.tofp := by
  rw [flush]
  split <;> rfl

omit [DecidableEq P] in
theorem flush_used : (flush n fs s).1.used = fs.used := by
  rw [flush]
  split <;> rfl

omit [DecidableEq P] in
/-- A write of nothing at the beginning changes nothing. -/
theorem flush_data_of_not_inside (hout : ¬s.Inside) (hrunning : s.phase.isExited = false) (n : ℕ) :
    (flush n fs s).1.data = fs.data := by
  have hempty : s.buf = [] ∧ s.written = 0 := by
    by_contra hne
    refine hout ⟨hrunning, .inr ?_⟩
    rcases not_and_or.mp hne with h | h
    · exact .inl h
    · exact .inr h
  rw [flush]
  split
  · rfl
  · rename_i j hj
    show Function.update fs.data j (overwrite (fs.data j) s.written (s.buf.take n)) = _
    rw [hempty.1, hempty.2, List.take_nil]
    have hsame : overwrite (fs.data j) 0 [] = fs.data j := by simp [overwrite]
    rw [hsame, Function.update_eq_self]

omit [DecidableEq P] in
theorem frame_flush (hrunning : s.phase.isExited = false) (n : ℕ) :
    Frame T p fs s (flush n fs s).1 where
  used := Nat.le_of_eq flush_used.symm
  lockfname k _ h := by rwa [flush_dir]
  owner i _ q _ h := by rwa [flush_owner]
  data i _ h := by
    by_cases hto : s.tofp = some i
    · rw [flush_data_of_not_inside (fun hin => h ⟨hto, hin⟩) hrunning]
    · exact flush_data_of_ne n fs s hto

omit [DecidableEq P] in
/-- A process that has something in front of it after a write had it before. -/
theorem inside_of_flush (h : (flush n fs s).2.Inside) : s.Inside := by
  refine ⟨?_, ?_⟩
  · rw [← flush_phase n fs s]
    exact h.running
  · have hbegan := h.began
    rw [flush_phase] at hbegan
    rw [flush] at hbegan
    split at hbegan
    · exact hbegan
    · rcases hbegan with hlocked | hbuf | hwritten
      · exact .inl hlocked
      · refine .inr (.inl fun hnil => hbuf ?_)
        show s.buf.drop n = []
        rw [hnil, List.drop_nil]
      · by_cases hnil : s.buf = []
        · refine .inr (.inr fun hzero => hwritten ?_)
          show s.written + (s.buf.take n).length = 0
          rw [hnil, hzero, List.take_nil]
          rfl
        · exact .inr (.inl hnil)

/-! ### The steps of one process -/

/-- A step keeps what holds of its process, and is in its frame. -/
structure StepKeeps (T : Tool) (p : P) (fs : Files P) (s : Proc) (fs' : Files P) (s' : Proc) :
    Prop where
  held : Held T p fs' s'
  frame : Frame T p fs s fs'

omit [DecidableEq P] in
theorem stepKeeps_flush (h : Held T p fs s) (hrunning : s.phase.isExited = false) (n : ℕ) :
    StepKeeps T p fs s (flush n fs s).1 (flush n fs s).2 := by
  refine ⟨⟨fun i hi hin => ?_, fun i hi => ?_, fun k hk => ?_,
    ⟨fun hphase => ?_, fun hphase => ?_⟩⟩, frame_flush hrunning n⟩
  · rw [flush_tofp] at hi
    rw [flush_owner]
    exact h.owns i hi (inside_of_flush hin)
  · rw [flush_tofp] at hi
    rw [flush_used]
    exact h.target i hi
  · rw [flush_fromfp] at hk
    rw [flush_used, flush_dir, flush_tofp]
    exact h.source k hk
  · rw [flush_phase] at hphase
    obtain ⟨hbuf, hwritten⟩ := h.waits.empty hphase
    rw [flush]
    split
    · exact ⟨hbuf, hwritten⟩
    · simp [hbuf, hwritten]
  · rw [flush_phase] at hphase
    rw [flush_tofp]
    exact h.waits.closed hphase

omit [DecidableEq P] in
theorem stepKeeps_same (h : Held T p fs s) (hto : s'.tofp = s.tofp) (hfrom : s'.fromfp = s.fromfp)
    (hin : s'.Inside → s.Inside) (hwaits : s'.Waits) : StepKeeps T p fs s fs s' := by
  refine ⟨⟨fun i hi hin' => ?_, fun i hi => ?_, fun k hk => ?_, hwaits⟩, .refl T p fs s⟩
  · exact h.owns i (hto ▸ hi) (hin hin')
  · exact h.target i (hto ▸ hi)
  · rw [hfrom] at hk
    rw [hto]
    exact h.source k hk

/-- A process that has nothing to write is not inside when it gives up. -/
theorem not_inside_exiting {status : ℕ} (h : s.buf = [] ∧ s.written = 0)
    (hphase : s.phase = .exiting status) : ¬s.Inside := by
  intro hin
  rcases hin.began with hlocked | hbuf | hwritten
  · rw [hphase] at hlocked
    cases hlocked
  · exact hbuf h.1
  · exact hwritten h.2

theorem waits_of_phase (h : s.phase ≠ .openKey ∧ s.phase ≠ .openLock ∧ s.phase ≠ .setLock) :
    s.Waits := by
  refine ⟨fun hphase => ?_, fun hphase => ?_⟩
  · rcases hphase with hphase | hphase | hphase
    · exact absurd hphase h.1
    · exact absurd hphase h.2.1
    · exact absurd hphase h.2.2
  · rcases hphase with hphase | hphase
    · exact absurd hphase h.1
    · exact absurd hphase h.2.1

omit [DecidableEq P] in
theorem stepKeeps_openKey (h : Held T p fs s) (hphase : s.phase = .openKey)
    (hname : a.fname ≠ T.lockfname) : StepKeeps T p fs s fs (T.openKey a fs s) := by
  have hempty := h.waits.empty (.inl hphase)
  have hclosed := h.waits.closed (.inl hphase)
  rw [Tool.openKey]
  split
  · refine stepKeeps_same h rfl rfl (fun hin => absurd hin (not_inside_exiting hempty rfl))
      (waits_of_phase ?_)
    simp
  · -- the file that is opened has another name than the lock file
    have hsource : ∀ k, fs.openFile a.fname = some k →
        k < fs.used ∧ fs.dir T.lockfname ≠ some k ∧ s.tofp ≠ some k := by
      intro k hk
      have hdir : fs.dir a.fname = some k := (Option.filter_eq_some_iff.mp hk).1
      refine ⟨fs.isDir.lt _ _ hdir, fun hlock => hname (fs.isDir.inj _ _ k hdir hlock), ?_⟩
      rw [hclosed]
      exact fun hnone => by cases hnone
    refine ⟨⟨fun i hi => ?_, fun i hi => ?_, hsource, ⟨fun _ => hempty, fun _ => hclosed⟩⟩,
      .refl T p fs s⟩
    · change s.tofp = some i at hi
      rw [hclosed] at hi
      cases hi
    · change s.tofp = some i at hi
      rw [hclosed] at hi
      cases hi

omit [DecidableEq P] in
/-- The lock file is there already, or it is a new one. -/
theorem openCreate_cases {n : Name} (h : (fs.openCreate n).1 = some i) :
    ((fs.openCreate n).2 = fs ∧ fs.dir n = some i) ∨
      ((fs.openCreate n).2 = fs.create n ∧ i = fs.used) := by
  rw [FileSystem.openCreate] at h ⊢
  cases hdir : fs.dir n with
  | none =>
      rw [hdir] at h
      exact .inr ⟨rfl, (Option.some.inj h).symm⟩
  | some j =>
      rw [hdir] at h
      dsimp only at h ⊢
      split at h
      · rename_i haccess
        obtain rfl := Option.some.inj h
        exact .inl ⟨by rw [if_pos haccess], rfl⟩
      · cases h

omit [DecidableEq P] in
theorem frame_create (T : Tool) (p : P) (fs : Files P) (s : Proc) :
    Frame T p fs s (fs.create T.lockfname) where
  used := Nat.le_succ _
  lockfname k hk _ := by
    show Function.update fs.dir T.lockfname (some fs.used) T.lockfname ≠ some k
    rw [Function.update_self]
    exact fun heq => Nat.lt_irrefl k ((Option.some.inj heq) ▸ hk)
  owner i hi q _ hq := by
    show Function.update fs.owner fs.used none i = some q
    rw [Function.update_of_ne (Nat.ne_of_lt hi)]
    exact hq
  data i hi _ := Function.update_of_ne (Nat.ne_of_lt hi) _ _

omit [DecidableEq P] in
theorem stepKeeps_openLock (h : Held T p fs s) (hphase : s.phase = .openLock) :
    StepKeeps T p fs s (T.openLock fs s).1 (T.openLock fs s).2 := by
  have hempty := h.waits.empty (.inr (.inl hphase))
  have hready : ∀ fd, ({ s with tofp := fd }.goto .setLock).Waits := fun fd =>
    ⟨fun _ => hempty, fun hor => by simp at hor⟩
  have hnot : ∀ fd, ¬({ s with tofp := fd }.goto .setLock).Inside := by
    intro fd hin
    rcases hin.began with hlocked | hbuf | hwritten
    · cases hlocked
    · exact hbuf hempty.1
    · exact hwritten hempty.2
  rw [Tool.openLock]
  dsimp only
  cases hfd : (fs.openCreate T.lockfname).1 with
  | none =>
      have hsame : (fs.openCreate T.lockfname).2 = fs := by
        rw [FileSystem.openCreate] at hfd ⊢
        cases hdir : fs.dir T.lockfname with
        | none =>
            rw [hdir] at hfd
            cases hfd
        | some j =>
            rw [hdir] at hfd
            dsimp only at hfd ⊢
            split at hfd
            · cases hfd
            · rw [if_neg ‹_›]
      rw [hsame, if_pos rfl]
      exact stepKeeps_same h rfl rfl (fun hin => absurd hin (not_inside_exiting hempty rfl))
        (waits_of_phase (by simp))
  | some i =>
      rw [if_neg (by simp)]
      rcases openCreate_cases hfd with ⟨hfs, hdir⟩ | ⟨hfs, rfl⟩
      · rw [hfs]
        refine ⟨⟨fun j _ hin => absurd hin (hnot _), fun j hj => ?_, fun k hk => ?_, hready _⟩,
          .refl T p fs s⟩
        · obtain rfl := Option.some.inj hj
          exact fs.isDir.lt _ _ hdir
        · obtain ⟨hlt, hlock, -⟩ := h.source k hk
          exact ⟨hlt, hlock, fun heq => hlock (hdir.trans heq)⟩
      · rw [hfs]
        have hframe := frame_create T p fs s
        refine ⟨⟨fun j _ hin => absurd hin (hnot _), fun j hj => ?_, fun k hk => ?_, hready _⟩,
          hframe⟩
        · obtain rfl := Option.some.inj hj
          exact Nat.lt_succ_self _
        · obtain ⟨hlt, hlock, -⟩ := h.source k hk
          refine ⟨Nat.lt_succ_of_lt hlt, hframe.lockfname k hlt hlock, fun heq => ?_⟩
          exact Nat.lt_irrefl k ((Option.some.inj heq) ▸ hlt)

theorem stepKeeps_setLock (h : Held T p fs s) (hphase : s.phase = .setLock) :
    StepKeeps T p fs s (Tool.setLock p fs s).1 (Tool.setLock p fs s).2 := by
  have hempty := h.waits.empty (.inr (.inr hphase))
  rw [Tool.setLock]
  cases hlock : s.tofp.bind fun i => fs.setLock p i with
  | none =>
      exact stepKeeps_same h rfl rfl (fun hin => absurd hin (not_inside_exiting hempty rfl))
        (waits_of_phase (by simp))
  | some fs' =>
      obtain ⟨i, hi, hset⟩ := Option.bind_eq_some_iff.mp hlock
      obtain ⟨hdir, hdata, -⟩ := FileSystem.setLock_eq hset
      have hused : fs'.used = fs.used := by
        rw [FileSystem.setLock] at hset
        split at hset
        · obtain rfl := Option.some.inj hset
          rfl
        · split at hset
          · obtain rfl := Option.some.inj hset
            rfl
          · cases hset
      refine ⟨⟨fun j hj _ => ?_, fun j hj => ?_, fun k hk => ?_, waits_of_phase (by simp)⟩,
        ⟨Nat.le_of_eq hused.symm, fun k _ hk => ?_, fun j _ q hqp hq => ?_, fun j _ _ => ?_⟩⟩
      · obtain rfl := Option.some.inj (hi.symm.trans hj)
        exact FileSystem.setLock_owner hset
      · show j < fs'.used
        rw [hused]
        exact h.target j hj
      · show k < fs'.used ∧ fs'.dir T.lockfname ≠ some k ∧ _
        rw [hused, hdir]
        exact h.source k hk
      · rwa [hdir]
      · rw [FileSystem.setLock] at hset
        split at hset
        · rename_i hfree
          obtain rfl := Option.some.inj hset
          have hne : j ≠ i := by
            rintro rfl
            rw [hfree] at hq
            cases hq
          show Function.update fs.owner i (some p) j = some q
          rw [Function.update_of_ne hne]
          exact hq
        · split at hset
          · obtain rfl := Option.some.inj hset
            exact hq
          · cases hset
      · rw [hdata]

omit [DecidableEq P] in
/-- A process that is inside goes on without the files. -/
theorem stepKeeps_goto (h : Held T p fs s) (hlocked : s.phase.locked = true)
    (hto : s'.tofp = s.tofp) (hfrom : s'.fromfp = s.fromfp)
    (hphase : s'.phase ≠ .openKey ∧ s'.phase ≠ .openLock ∧ s'.phase ≠ .setLock) :
    StepKeeps T p fs s fs s' := by
  exact stepKeeps_same h hto hfrom (fun _ => ⟨Phase.isExited_of_locked hlocked, .inl hlocked⟩)
    (waits_of_phase hphase)

/-- The file that was read is not the lock file, so closing it does not give up the lock. -/
theorem stepKeeps_closeFrom (h : Held T p fs s) (hphase : s.phase = .closeFrom) :
    StepKeeps T p fs s (s.fromfp.elim fs fun k => fs.close p k) (s.goto .rename) := by
  have hgo : StepKeeps T p fs s fs (s.goto .rename) :=
    stepKeeps_goto h (by rw [hphase]; rfl) rfl rfl (by simp)
  cases hfrom : s.fromfp with
  | none => exact hgo
  | some k =>
      have hused : (fs.close p k).used = fs.used := by
        rw [FileSystem.close]
        split <;> rfl
      have howner : ∀ i q, fs.owner i = some q → q ≠ p ∨ i ≠ k →
          (fs.close p k).owner i = some q := by
        intro i q hq hor
        by_cases hik : i = k
        · subst hik
          have hqp := hor.resolve_right (not_not.mpr rfl)
          rw [FileSystem.close, if_neg (by rw [hq]; simpa using hqp)]
          exact hq
        · rw [FileSystem.close_owner_of_ne hik]
          exact hq
      show StepKeeps T p fs s (fs.close p k) (s.goto .rename)
      refine ⟨⟨fun i hi hin => ?_, fun i hi => ?_, fun l hl => ?_, hgo.held.waits⟩,
        ⟨Nat.le_of_eq hused.symm, fun l _ hl => ?_, fun i _ q hqp hq => howner i q hq (.inl hqp),
          fun i _ _ => ?_⟩⟩
      · refine howner i p (hgo.held.owns i hi hin) (.inr fun hik => ?_)
        exact (h.source k hfrom).2.2 (hik ▸ hi)
      · rw [hused]
        exact h.target i hi
      · rw [hused, FileSystem.close_dir]
        exact h.source l hl
      · rwa [FileSystem.close_dir]
      · rw [FileSystem.close_data]

omit [DecidableEq P] in
theorem stepKeeps_rename (h : Held T p fs s) (hphase : s.phase = .rename)
    (hname : a.fname ≠ T.lockfname) :
    StepKeeps T p fs s (fs.rename T.lockfname a.fname) (s.goto .closeTo) := by
  have hgo : StepKeeps T p fs s fs (s.goto .closeTo) :=
    stepKeeps_goto h (by rw [hphase]; rfl) rfl rfl (by simp)
  cases hdir : fs.dir T.lockfname with
  | none =>
      have hsame : fs.rename T.lockfname a.fname = fs := by
        rw [FileSystem.rename]
        split
        · rfl
        · rename_i i hi
          rw [hdir] at hi
          cases hi
      rw [hsame]
      exact hgo
  | some j =>
      have hnone : (fs.rename T.lockfname a.fname).dir T.lockfname = none := by
        rw [FileSystem.rename_dir hname.symm hdir, Function.update_of_ne hname.symm,
          Function.update_self]
      have hrest : (fs.rename T.lockfname a.fname).used = fs.used ∧
          (fs.rename T.lockfname a.fname).owner = fs.owner := by
        rw [FileSystem.rename]
        split
        · exact ⟨rfl, rfl⟩
        · rw [if_neg hname.symm]
          exact ⟨rfl, rfl⟩
      obtain ⟨hused, howner⟩ := hrest
      refine ⟨⟨fun i hi hin => ?_, fun i hi => ?_, fun k hk => ?_, hgo.held.waits⟩,
        ⟨Nat.le_of_eq hused.symm, fun k _ _ => ?_, fun i _ q _ hq => ?_, fun i _ _ => ?_⟩⟩
      · rw [howner]
        exact hgo.held.owns i hi hin
      · rw [hused]
        exact h.target i hi
      · rw [hused, hnone]
        exact ⟨(h.source k hk).1, by simp, (h.source k hk).2.2⟩
      · rw [hnone]
        simp
      · rwa [howner]
      · rw [FileSystem.rename_data]

theorem stepKeeps_finish (h : Held T p fs s) (hrunning : s.phase.isExited = false) (status : ℕ) :
    StepKeeps T p fs s (Tool.finish p status fs s).1 (Tool.finish p status fs s).2 := by
  have hflush := stepKeeps_flush h hrunning s.buf.length
  rw [Tool.finish]
  refine ⟨⟨fun i _ hin => ?_, hflush.held.target, hflush.held.source, waits_of_phase (by simp)⟩,
    ⟨hflush.frame.used, hflush.frame.lockfname, fun i hi q hqp hq => ?_, hflush.frame.data⟩⟩
  · exact absurd hin.running (by simp [Phase.isExited])
  · have hkept := hflush.frame.owner i hi q hqp hq
    show (if (flush s.buf.length fs s).1.owner i = some p then none
      else (flush s.buf.length fs s).1.owner i) = some q
    rw [hkept, if_neg (by simpa using hqp)]

/-- A step that adds to the buffer, if anything. -/
structure Prints (s s' : Proc) (text : List UInt8) : Prop where
  tofp : s'.tofp = s.tofp
  fromfp : s'.fromfp = s.fromfp
  written : s'.written = s.written
  buf : s'.buf = s.buf ++ text

theorem prints_goto (s : Proc) (phase : Phase) : Prints s (s.goto phase) [] :=
  ⟨rfl, rfl, rfl, (List.append_nil _).symm⟩

omit [DecidableEq P] in
theorem readStep_prints (F : Format) (id : List UInt8) (fs : Files P) (s : Proc) :
    ∃ text, Prints s (readStep F id fs s).1 text ∧ (readStep F id fs s).1.phase = s.phase := by
  rw [readStep]
  split
  · exact ⟨[], ⟨rfl, rfl, rfl, (List.append_nil _).symm⟩, rfl⟩
  · dsimp only
    split
    · exact ⟨_, ⟨rfl, rfl, rfl, rfl⟩, rfl⟩
    · exact ⟨_, ⟨rfl, rfl, rfl, rfl⟩, rfl⟩

omit [DecidableEq P] in
theorem readPass_prints (T : Tool) (a : Args) (next : ℤ → Phase) (fs : Files P) (s : Proc) :
    ∃ text, Prints s (T.readPass a next fs s) text ∧
      ((T.readPass a next fs s).phase = s.phase ∨
        ∃ rc, (T.readPass a next fs s).phase = next rc) := by
  obtain ⟨text, hprints, hphase⟩ := readStep_prints T.format a.idname fs s
  rw [Tool.readPass]
  dsimp only
  split
  · exact ⟨text, ⟨hprints.tofp, hprints.fromfp, hprints.written, hprints.buf⟩, .inr ⟨_, rfl⟩⟩
  · exact ⟨text, hprints, .inl hphase⟩

theorem writeRecord_prints (T : Tool) (a : Args) (s : Proc) :
    ∃ text, Prints s (T.writeRecord a s) text ∧
      ((T.writeRecord a s).phase = .exiting 1 ∨ (T.writeRecord a s).phase = .secondPass) := by
  rw [Tool.writeRecord]
  split
  · exact ⟨[], prints_goto s _, .inr rfl⟩
  · split
    · exact ⟨[], prints_goto s _, .inl rfl⟩
    · dsimp only
      split
      · exact ⟨_, ⟨rfl, rfl, rfl, rfl⟩, .inl rfl⟩
      · exact ⟨_, ⟨rfl, rfl, rfl, rfl⟩, .inr rfl⟩

theorem afterFirst_phase (a : Args) (rc : ℤ) :
    Tool.afterFirst a rc = .exiting 1 ∨ Tool.afterFirst a rc = .writeRecord := by
  rw [Tool.afterFirst]
  split
  · exact .inl rfl
  · split
    · exact .inl rfl
    · exact .inr rfl

theorem afterSecond_phase (rc : ℤ) :
    Tool.afterSecond rc = .exiting 1 ∨ Tool.afterSecond rc = .closeFrom := by
  rw [Tool.afterSecond]
  split
  · exact .inl rfl
  · exact .inr rfl

theorem stepKeeps_step (h : Held T p fs s) (hname : a.fname ≠ T.lockfname) :
    StepKeeps T p fs s (T.step bufsiz a p fs s).1 (T.step bufsiz a p fs s).2 := by
  rw [Tool.step]
  by_cases hexited : s.phase.isExited = true
  · rw [if_pos hexited]
    exact ⟨h, .refl T p fs s⟩
  have hrunning : s.phase.isExited = false := eq_false_of_ne_true hexited
  rw [if_neg hexited]
  split
  · exact stepKeeps_flush h hrunning bufsiz
  rw [Tool.action]
  cases hphase : s.phase with
  | openKey => exact stepKeeps_openKey h hphase hname
  | openLock => exact stepKeeps_openLock h hphase
  | setLock => exact stepKeeps_setLock h hphase
  | prompt =>
      refine stepKeeps_goto h (by rw [hphase]; rfl) rfl rfl ?_
      rcases afterPrompt_cases T a with hnext | hnext <;> simp [hnext]
  | firstPass =>
      obtain ⟨text, hprints, hnext⟩ := readPass_prints T a (Tool.afterFirst a) fs s
      refine stepKeeps_goto h (by rw [hphase]; rfl) hprints.tofp hprints.fromfp ?_
      rcases hnext with hnext | ⟨rc, hnext⟩
      · simp [hnext, hphase]
      · rcases afterFirst_phase a rc with hrc | hrc <;> simp [hnext, hrc]
  | writeRecord =>
      obtain ⟨text, hprints, hnext⟩ := writeRecord_prints T a s
      refine stepKeeps_goto h (by rw [hphase]; rfl) hprints.tofp hprints.fromfp ?_
      rcases hnext with hnext | hnext <;> simp [hnext]
  | secondPass =>
      obtain ⟨text, hprints, hnext⟩ := readPass_prints T a Tool.afterSecond fs s
      refine stepKeeps_goto h (by rw [hphase]; rfl) hprints.tofp hprints.fromfp ?_
      rcases hnext with hnext | ⟨rc, hnext⟩
      · simp [hnext, hphase]
      · rcases afterSecond_phase rc with hrc | hrc <;> simp [hnext, hrc]
  | closeFrom => exact stepKeeps_closeFrom h hphase
  | rename => exact stepKeeps_rename h hphase hname
  | closeTo => exact stepKeeps_finish h hrunning 0
  | exiting status => exact stepKeeps_finish h hrunning status
  | exited status => exact ⟨h, .refl T p fs s⟩

/-! ### All processes -/

def AllHeld (T : Tool) (sys : Sys P) : Prop := ∀ p, Held T p sys.fs (sys.proc p)

omit [DecidableEq P] in
theorem allHeld_start (T : Tool) (fs : Files P) : AllHeld T (Sys.start fs) := by
  intro p
  refine ⟨fun i hi => ?_, fun i hi => ?_, fun k hk => ?_, fun _ => ⟨rfl, rfl⟩, fun _ => rfl⟩
  · cases hi
  · cases hi
  · cases hk

theorem AllHeld.step (h : AllHeld T sys) (hname : ∀ p, (args p).fname ≠ T.lockfname) (p : P) :
    AllHeld T (sys.step T bufsiz args p) := by
  intro q
  have hkeeps := @stepKeeps_step P _ T bufsiz (args p) p sys.fs (sys.proc p) (h p) (hname p)
  by_cases hqp : q = p
  · subst hqp
    rw [Sys.step_proc_self]
    exact hkeeps.held
  · rw [Sys.step_proc_of_ne hqp]
    exact (h q).frame hqp hkeeps.frame

theorem AllHeld.run (h : AllHeld T sys) (hname : ∀ p, (args p).fname ≠ T.lockfname)
    (sched : List P) : AllHeld T (sys.run T bufsiz args sched) := by
  induction sched generalizing sys with
  | nil => exact h
  | cons p sched ih => exact ih (h.step hname p)

omit [DecidableEq P] in
/-- Two processes that are inside with the same file are one. -/
theorem AllHeld.exclusive (h : AllHeld T sys) (hp : (sys.proc p).tofp = some i)
    (hpin : (sys.proc p).Inside) (hq : (sys.proc q).tofp = some i) (hqin : (sys.proc q).Inside) :
    p = q :=
  Option.some.inj (((h p).owns i hp hpin).symm.trans ((h q).owns i hq hqin))

/-- The step of another process leaves the file of one that is inside as it is. -/
theorem AllHeld.data_step (h : AllHeld T sys) (hname : ∀ p, (args p).fname ≠ T.lockfname)
    (hp : (sys.proc p).tofp = some i) (hin : (sys.proc p).Inside) (hqp : q ≠ p) :
    (sys.step T bufsiz args q).fs.data i = sys.fs.data i := by
  have hkeeps := @stepKeeps_step P _ T bufsiz (args q) q sys.fs (sys.proc q) (h q) (hname q)
  exact hkeeps.frame.data i ((h p).target i hp) fun hor =>
    hqp (h.exclusive hor.1 hor.2 hp hin)

/-- In every run of any number of processes, one that is inside has the lock on the file that
it writes to, it is the only one inside with this file, and the step of another process leaves
the file as it is. -/
theorem tools_exclusive (T : Tool) (bufsiz : ℕ) (args : P → Args) (fs : Files P)
    (hname : ∀ p, (args p).fname ≠ T.lockfname) (sched : List P) (p : P) (i : ℕ)
    (hp : ((Sys.run T bufsiz args (.start fs) sched).proc p).tofp = some i)
    (hin : ((Sys.run T bufsiz args (.start fs) sched).proc p).Inside) :
    (Sys.run T bufsiz args (.start fs) sched).fs.owner i = some p ∧
      ∀ q, q ≠ p →
        ¬(((Sys.run T bufsiz args (.start fs) sched).proc q).tofp = some i ∧
          ((Sys.run T bufsiz args (.start fs) sched).proc q).Inside) ∧
        ((Sys.run T bufsiz args (.start fs) sched).step T bufsiz args q).fs.data i =
          (Sys.run T bufsiz args (.start fs) sched).fs.data i := by
  have hall : AllHeld T (Sys.run T bufsiz args (.start fs) sched) :=
    (allHeld_start T fs).run hname sched
  refine ⟨(hall p).owns i hp hin, fun q hqp => ⟨?_, hall.data_step hname hp hin hqp⟩⟩
  rintro ⟨hq, hqin⟩
  exact hqp (hall.exclusive hq hqin hp hin)

theorem tools_exclusive_additions :
    let sys := Sys.run pfstore 4096 additions (.start filesA) [true, false, true, true, false]
    sys.fs.owner 1 = some true ∧
      ¬((sys.proc false).tofp = some 1 ∧ (sys.proc false).Inside) ∧
      (sys.step pfstore 4096 additions false).fs.data 1 = sys.fs.data 1 := by
  have hexclusive := tools_exclusive pfstore 4096 additions filesA (by decide)
    [true, false, true, true, false] true 1 (by decide) ⟨by decide, .inl (by decide)⟩
  exact ⟨hexclusive.1, hexclusive.2 false (by decide)⟩

/-! ### What gets into the file -/

def Tool.prints (T : Tool) (bufsiz : ℕ) (a : Args) (p : P) (fs : Files P) (s : Proc) : List UInt8 :=
  if s.phase.isExited = true ∨ bufsiz < s.buf.length then []
  else (T.action a p fs s).2.buf.drop s.buf.length

def Sys.printed (T : Tool) (bufsiz : ℕ) (args : P → Args) (p : P) : Sys P → List P → List UInt8
  | _, [] => []
  | sys, q :: sched =>
      (if q = p then T.prints bufsiz (args p) p sys.fs (sys.proc p) else []) ++
        printed T bufsiz args p (sys.step T bufsiz args q) sched

/-- The process has taken the lock on `i`, which held `left`, and has printed `printed`. -/
structure Isolated (bufsiz : ℕ) (p : P) (i : ℕ) (left printed : List UInt8) (sys : Sys P) :
    Prop where
  owner : sys.fs.owner i = some p
  output : Output bufsiz sys.fs (sys.proc p) i left printed
  phase : (sys.proc p).phase.locked = true ∨ ∃ status, (sys.proc p).phase = .exiting status

section Isolated

variable {left printed : List UInt8}

omit [DecidableEq P] in
theorem Isolated.running (h : Isolated bufsiz p i left printed sys) :
    (sys.proc p).phase.isExited = false := by
  rcases h.phase with hlocked | ⟨status, hstatus⟩
  · exact Phase.isExited_of_locked hlocked
  · rw [hstatus]
    rfl

/-- Another process changes neither the lock nor the file. -/
theorem Isolated.step_other (h : Isolated bufsiz p i left printed sys) (hall : AllHeld T sys)
    (hname : ∀ p, (args p).fname ≠ T.lockfname) (hqp : q ≠ p) :
    Isolated bufsiz p i left printed (sys.step T bufsiz args q) := by
  have hframe :=
    (@stepKeeps_step P _ T bufsiz (args q) q sys.fs (sys.proc q) (hall q) (hname q)).frame
  have hlt := (hall p).target i h.output.tofp
  have hproc : (sys.step T bufsiz args q).proc p = sys.proc p := Sys.step_proc_of_ne hqp.symm
  refine ⟨hframe.owner i hlt p hqp.symm h.owner, ?_, ?_⟩
  · rw [hproc]
    refine h.output.congr (hframe.data i hlt fun hor => ?_) rfl rfl rfl
    -- it would have the lock itself
    have howner := (hall q).owns i hor.1 hor.2
    exact hqp (Option.some.inj (howner.symm.trans h.owner))
  · rw [hproc]
    exact h.phase

omit [DecidableEq P] in
/-- A step that prints and does not touch the file. -/
theorem Output.prints {text : List UInt8} (h : Output bufsiz fs s i left printed)
    (hdata : fs'.data i = fs.data i) (hprints : Prints s s' text) :
    Output bufsiz fs' s' i left (printed ++ s'.buf.drop s.buf.length) := by
  have htext : s'.buf.drop s.buf.length = text := by
    rw [hprints.buf, List.drop_left]
  rw [htext]
  exact (h.print text).congr hdata hprints.tofp hprints.written hprints.buf

theorem locked_of_readPass {next : ℤ → Phase}
    (hnext : s'.phase = s.phase ∨ ∃ rc, s'.phase = next rc) (hlocked : s.phase.locked = true)
    (hor : ∀ rc, next rc = .exiting 1 ∨ (next rc).locked = true) :
    s'.phase.locked = true ∨ ∃ status, s'.phase = .exiting status := by
  rcases hnext with hsame | ⟨rc, hrc⟩
  · rw [hsame]
    exact .inl hlocked
  · rw [hrc]
    rcases hor rc with hfails | hgoes
    · exact .inr ⟨1, hfails⟩
    · exact .inl hgoes

theorem action_prints (h : Held T p fs s) (hto : s.tofp = some i) (howner : fs.owner i = some p)
    (hphase : s.phase.locked = true) (hlast : s.phase ≠ .closeTo) :
    (∃ text, Prints s (T.action a p fs s).2 text) ∧
      (T.action a p fs s).1.data i = fs.data i ∧ (T.action a p fs s).1.owner i = some p ∧
      ((T.action a p fs s).2.phase.locked = true ∨
        ∃ status, (T.action a p fs s).2.phase = .exiting status) := by
  rw [Tool.action]
  cases hp : s.phase with
  | prompt =>
      refine ⟨⟨[], prints_goto s _⟩, rfl, howner, ?_⟩
      rcases afterPrompt_cases T a with hnext | hnext
      · exact .inl (by rw [Proc.goto_phase, hnext]; rfl)
      · exact .inr ⟨1, hnext⟩
  | firstPass =>
      obtain ⟨text, hprints, hnext⟩ := readPass_prints T a (Tool.afterFirst a) fs s
      refine ⟨⟨text, hprints⟩, rfl, howner, locked_of_readPass hnext hphase fun rc => ?_⟩
      rcases afterFirst_phase a rc with hrc | hrc
      · exact .inl hrc
      · exact .inr (by rw [hrc]; rfl)
  | writeRecord =>
      obtain ⟨text, hprints, hnext⟩ := writeRecord_prints T a s
      refine ⟨⟨text, hprints⟩, rfl, howner, ?_⟩
      rcases hnext with hnext | hnext
      · exact .inr ⟨1, hnext⟩
      · exact .inl (by rw [hnext]; rfl)
  | secondPass =>
      obtain ⟨text, hprints, hnext⟩ := readPass_prints T a Tool.afterSecond fs s
      refine ⟨⟨text, hprints⟩, rfl, howner, locked_of_readPass hnext hphase fun rc => ?_⟩
      rcases afterSecond_phase rc with hrc | hrc
      · exact .inl hrc
      · exact .inr (by rw [hrc]; rfl)
  | closeFrom =>
      refine ⟨⟨[], prints_goto s _⟩, ?_, ?_, .inl rfl⟩
      · cases hfrom : s.fromfp with
        | none => rfl
        | some k => exact congrFun (FileSystem.close_data fs p k) i
      · cases hfrom : s.fromfp with
        | none => exact howner
        | some k =>
            have hik : i ≠ k := by
              rintro rfl
              exact (h.source i hfrom).2.2 hto
            exact (FileSystem.close_owner_of_ne hik).trans howner
  | rename =>
      refine ⟨⟨[], prints_goto s _⟩, congrFun (FileSystem.rename_data fs _ _) i, ?_, .inl rfl⟩
      show (fs.rename T.lockfname a.fname).owner i = some p
      rw [FileSystem.rename]
      split
      · exact howner
      · split <;> exact howner
  | closeTo => exact absurd hp hlast
  | _ =>
      rw [hp] at hphase
      cases hphase

/-- A step of the process itself, unless it is its last one. -/
theorem Isolated.step_self (h : Isolated bufsiz p i left printed sys) (hall : AllHeld T sys)
    (hrunning : ((sys.step T bufsiz args p).proc p).phase.isExited = false) :
    Isolated bufsiz p i left (printed ++ T.prints bufsiz (args p) p sys.fs (sys.proc p))
      (sys.step T bufsiz args p) := by
  have hexited := h.running
  rw [Sys.step_proc_self] at hrunning
  by_cases hfull : bufsiz < (sys.proc p).buf.length
  · have hstep : T.step bufsiz (args p) p sys.fs (sys.proc p) =
        flush bufsiz sys.fs (sys.proc p) := by
      rw [Tool.step, if_neg (by simp [hexited]), if_pos hfull]
    rw [Tool.prints, if_pos (.inr hfull), List.append_nil]
    refine ⟨?_, ?_, ?_⟩
    · rw [Sys.step_fs, hstep, flush_owner]
      exact h.owner
    · rw [Sys.step_fs, Sys.step_proc_self, hstep]
      exact h.output.flush hfull.le
    · rw [Sys.step_proc_self, hstep, flush_phase]
      exact h.phase
  · have hstep : T.step bufsiz (args p) p sys.fs (sys.proc p) =
        T.action (args p) p sys.fs (sys.proc p) := by
      rw [Tool.step, if_neg (by simp [hexited]), if_neg hfull]
    rw [hstep] at hrunning
    -- the last action ends the process
    have hgoes : (sys.proc p).phase.locked = true ∧ (sys.proc p).phase ≠ .closeTo := by
      rcases h.phase with hlocked | ⟨status, hstatus⟩
      · refine ⟨hlocked, fun hlast => ?_⟩
        rw [Tool.action, hlast] at hrunning
        cases hrunning
      · rw [Tool.action, hstatus] at hrunning
        cases hrunning
    obtain ⟨⟨text, hprints⟩, hdata, howner, hphase⟩ :=
      @action_prints P _ T (args p) p sys.fs (sys.proc p) i (hall p) h.output.tofp h.owner
        hgoes.1 hgoes.2
    rw [Tool.prints, if_neg (by simp [hexited, hfull])]
    refine ⟨?_, ?_, ?_⟩
    · rw [Sys.step_fs, hstep]
      exact howner
    · rw [Sys.step_fs, Sys.step_proc_self, hstep]
      exact h.output.prints hdata hprints
    · rw [Sys.step_proc_self, hstep]
      exact hphase

/-- The last step puts everything that has been printed into the file. -/
theorem Isolated.data_exit (h : Isolated bufsiz p i left printed sys) (hall : AllHeld T sys)
    (hexited : ((sys.step T bufsiz args p).proc p).phase.isExited = true) :
    (sys.step T bufsiz args p).fs.data i = printed ++ left.drop printed.length := by
  have hfinish : ∀ status, (Tool.finish p status sys.fs (sys.proc p)).1.data i =
      printed ++ left.drop printed.length := fun status => h.output.data_close
  have hrunning := h.running
  rw [Sys.step_proc_self, Tool.step, if_neg (by simp [hrunning])] at hexited
  rw [Sys.step_fs, Tool.step, if_neg (by simp [hrunning])]
  split at hexited
  · rw [flush_phase, hrunning] at hexited
    cases hexited
  rename_i hshort
  rw [if_neg hshort]
  rcases h.phase with hlocked | ⟨status, hstatus⟩
  · by_cases hlast : (sys.proc p).phase = .closeTo
    · rw [Tool.action, hlast]
      exact hfinish 0
    · obtain ⟨-, -, -, hphase⟩ := @action_prints P _ T (args p) p sys.fs (sys.proc p) i (hall p)
        h.output.tofp h.owner hlocked hlast
      rcases hphase with hlocked' | ⟨status, hstatus⟩
      · rw [Phase.isExited_of_locked hlocked'] at hexited
        cases hexited
      · rw [hstatus] at hexited
        cases hexited
  · rw [Tool.action, hstatus]
    exact hfinish status

omit [DecidableEq P] in
theorem Proc.exists_exited (h : s.phase.isExited = true) : ∃ status, s.phase = .exited status := by
  cases hphase : s.phase with
  | exited status => exact ⟨status, rfl⟩
  | _ =>
      rw [hphase] at h
      cases h

/-- A process that has not come to its end had not before. -/
theorem running_of_run (sched : List P)
    (h : ((sys.run T bufsiz args sched).proc p).phase.isExited = false) :
    (sys.proc p).phase.isExited = false := by
  induction sched generalizing sys with
  | nil => exact h
  | cons q sched ih =>
      have hnext := ih h
      by_contra hexited
      obtain ⟨status, hstatus⟩ := Proc.exists_exited (eq_true_of_ne_false hexited)
      have hproc : (sys.step T bufsiz args q).proc p = sys.proc p := by
        by_cases hqp : q = p
        · subst hqp
          rw [Sys.step_exited hstatus]
        · exact Sys.step_proc_of_ne (Ne.symm hqp)
      rw [hproc] at hnext
      exact hexited hnext

theorem Isolated.run (h : Isolated bufsiz p i left printed sys) (hall : AllHeld T sys)
    (hname : ∀ p, (args p).fname ≠ T.lockfname) (sched : List P)
    (hrunning : ((sys.run T bufsiz args sched).proc p).phase.isExited = false) :
    Isolated bufsiz p i left (printed ++ Sys.printed T bufsiz args p sys sched)
      (sys.run T bufsiz args sched) := by
  induction sched generalizing sys printed with
  | nil =>
      rw [Sys.printed, List.append_nil]
      exact h
  | cons q sched ih =>
      have hstep := running_of_run sched hrunning
      rw [Sys.printed, ← List.append_assoc]
      refine ih ?_ (hall.step hname q) hrunning
      by_cases hqp : q = p
      · subst hqp
        rw [if_pos rfl]
        exact h.step_self hall hstep
      · rw [if_neg hqp, List.append_nil]
        exact h.step_other hall hname hqp

theorem isolated_setLock (h : Held T p sys.fs (sys.proc p))
    (hphase : (sys.proc p).phase = .setLock) (hto : (sys.proc p).tofp = some i)
    (hset : (sys.fs.setLock p i).isSome = true) :
    Isolated bufsiz p i (sys.fs.data i) [] (sys.step T bufsiz args p) := by
  obtain ⟨fs₁, hfs₁⟩ := Option.isSome_iff_exists.mp hset
  obtain ⟨hbuf, hwritten⟩ := h.waits.empty (.inr (.inr hphase))
  have hshort : ¬bufsiz < (sys.proc p).buf.length := by
    rw [hbuf]
    exact Nat.not_lt_zero bufsiz
  have hstep : T.step bufsiz (args p) p sys.fs (sys.proc p) = (fs₁, (sys.proc p).goto .prompt) := by
    rw [Tool.step, hphase, if_neg (by simp [Phase.isExited]), if_neg hshort, Tool.action, hphase]
    show Tool.setLock p sys.fs (sys.proc p) = _
    rw [Tool.setLock, hto, Option.bind_some, hfs₁]
  obtain ⟨-, hdata, -⟩ := FileSystem.setLock_eq hfs₁
  refine ⟨?_, ?_, ?_⟩
  · rw [Sys.step_fs, hstep]
    exact FileSystem.setLock_owner hfs₁
  · rw [Sys.step_fs, Sys.step_proc_self, hstep]
    refine ⟨hto, ?_, ?_, ?_, ?_⟩
    · show (sys.proc p).written ≤ 0
      rw [hwritten]
    · show fs₁.data i =
        List.take (sys.proc p).written [] ++ (sys.fs.data i).drop (sys.proc p).written
      rw [hwritten, hdata]
      rfl
    · show (sys.proc p).buf = List.drop (sys.proc p).written []
      rw [hbuf, List.drop_nil]
    · show bufsiz ∣ (sys.proc p).written
      rw [hwritten]
      exact Nat.dvd_zero _
  · rw [Sys.step_proc_self, hstep]
    exact .inl rfl

end Isolated

/-- What a process prints to the lock file after it has got the lock arrives there whatever the
other processes do: until it comes to its end the file holds the full buffers that have been
written out, and after its last step it holds all that was printed, each time before the rest of
what was in the file at the time of the lock. -/
theorem tools_isolated (T : Tool) (bufsiz : ℕ) (args : P → Args) (fs : Files P)
    (hname : ∀ p, (args p).fname ≠ T.lockfname) (before after : List P) (p : P) (i : ℕ)
    (sys : Sys P) (hsys : sys = Sys.run T bufsiz args (.start fs) before)
    (hphase : (sys.proc p).phase = .setLock) (hto : (sys.proc p).tofp = some i)
    (hset : (sys.fs.setLock p i).isSome = true)
    (hrunning : (((sys.step T bufsiz args p).run T bufsiz args after).proc p).phase.isExited =
      false) :
    let printed := Sys.printed T bufsiz args p (sys.step T bufsiz args p) after
    let sys' := (sys.step T bufsiz args p).run T bufsiz args after
    sys'.fs.owner i = some p ∧ Output bufsiz sys'.fs (sys'.proc p) i (sys.fs.data i) printed ∧
      (((sys'.step T bufsiz args p).proc p).phase.isExited = true →
        (sys'.step T bufsiz args p).fs.data i =
          printed ++ (sys.fs.data i).drop printed.length) := by
  subst hsys
  have hall : AllHeld T (Sys.run T bufsiz args (.start fs) before) :=
    (allHeld_start T fs).run hname before
  have hlocked : Isolated bufsiz p i _ [] (Sys.step T bufsiz args p _) :=
    isolated_setLock (hall p) hphase hto hset
  have hend := hlocked.run (hall.step hname p) hname after hrunning
  rw [List.nil_append] at hend
  exact ⟨hend.owner, hend.output, hend.data_exit ((hall.step hname p).run hname after)⟩

set_option maxRecDepth 4000 in
theorem tools_isolated_additions :
    (Sys.run pfstore 4096 additions (.start filesA)
      ([true, false, true, true] ++ List.replicate 4 false ++ List.replicate 7 true ++ [true])).fs.data
        1 = ascii "a\t61\nb\t62\n" := by
  have hdata := (tools_isolated pfstore 4096 additions filesA (by decide) [true, false, true]
    (List.replicate 4 false ++ List.replicate 7 true) true 1 _ rfl (by decide) (by decide) (by decide)
    (by decide)).2.2 (by decide)
  exact hdata.trans (by decide)

end I2util
