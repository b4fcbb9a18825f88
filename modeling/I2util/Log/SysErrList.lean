import I2util.Log.ErrText
import Mathlib.Logic.Relation

/-!
The list of the system's messages, which `I2GetSysErrList` makes once for all threads.

A thread locks the mutex of `mach_dep.c`, fills the list if nobody has done so, and unlocks
it. What it returns is the list itself, which is read without the mutex then.
-/

namespace I2util

/-- Where a thread is in `I2GetSysErrList`: outside, in front of the lock, at the test of
`first`, in the loop, behind it, in front of the unlock, and behind the return. -/
inductive ListPc
  | idle
  | calling
  | locked
  | filling (i : ℕ)
  | filled
  | done
  | returned

def ListPc.holds : ListPc → Bool
  | idle => false
  | calling => false
  | locked => true
  | filling _ => true
  | filled => true
  | done => true
  | returned => false

def ListPc.Knows (first : Bool) : ListPc → Prop
  | idle => True
  | calling => True
  | locked => True
  | filling i => first = true ∧ i ≤ NUM_ERRORS
  | filled => first = true
  | done => first = false
  | returned => first = false

/-- The mutex, the threads and the static variables. An entry is null before it is written,
and `writes` counts how often that happened. -/
structure ListState (T : Type*) where
  owner : Option T
  pc : T → ListPc
  first : Bool
  errlist : ℕ → Option CText
  writes : ℕ → ℕ

variable {T : Type*} [DecidableEq T]

namespace ListState

def goto (s : ListState T) (t : T) (p : ListPc) : ListState T :=
  { s with pc := Function.update s.pc t p }

/-- `errlist[i] = strdup(strerror(i))` -/
def write (s : ListState T) (i : ℕ) (dup : Option CText) : ListState T :=
  { s with
    errlist := Function.update s.errlist i dup
    writes := Function.update s.writes i (s.writes i + 1) }

/-- The next step of the thread `t`. `room` says that there is memory for `strdup`. -/
inductive Step (strerror : ℕ → CText) (s : ListState T) (t : T) : ListState T → Prop
  | call (hpc : s.pc t = .idle ∨ s.pc t = .returned) : Step strerror s t (s.goto t .calling)
  | lock (hpc : s.pc t = .calling) (hfree : s.owner = none) :
      Step strerror s t ({ s with owner := some t }.goto t .locked)
  | test (hpc : s.pc t = .locked) :
      Step strerror s t (s.goto t (if s.first then .filling 0 else .done))
  | fill (i : ℕ) (room : Bool) (hpc : s.pc t = .filling i) (hi : i < NUM_ERRORS) :
      Step strerror s t
        ((s.write i (if room then some (strerror i) else none)).goto t (.filling (i + 1)))
  | leave (i : ℕ) (hpc : s.pc t = .filling i) (hi : ¬i < NUM_ERRORS) :
      Step strerror s t (s.goto t .filled)
  | clear (hpc : s.pc t = .filled) : Step strerror s t ({ s with first := false }.goto t .done)
  | unlock (hpc : s.pc t = .done) : Step strerror s t ({ s with owner := none }.goto t .returned)

def start : ListState T := ⟨none, fun _ => .idle, true, fun _ => none, fun _ => 0⟩

def Next (strerror : ℕ → CText) (s s' : ListState T) : Prop := ∃ t, Step strerror s t s'

def Reached (strerror : ℕ → CText) (s : ListState T) : Prop :=
  Relation.ReflTransGen (Next strerror) start s

variable {strerror : ℕ → CText} {s s' : ListState T} {t u : T} {p : ListPc}

@[simp] theorem goto_owner : (s.goto t p).owner = s.owner := rfl

@[simp] theorem goto_first : (s.goto t p).first = s.first := rfl

@[simp] theorem goto_errlist : (s.goto t p).errlist = s.errlist := rfl

@[simp] theorem goto_writes : (s.goto t p).writes = s.writes := rfl

@[simp] theorem goto_pc_self : (s.goto t p).pc t = p := Function.update_self ..

theorem goto_pc_of_ne (h : u ≠ t) : (s.goto t p).pc u = s.pc u := Function.update_of_ne h ..

theorem Step.pc_of_ne (h : Step strerror s t s') (hne : u ≠ t) : s'.pc u = s.pc u := by
  cases h <;> exact goto_pc_of_ne hne

/-! ### Who has the mutex -/

def Exclusive (s : ListState T) : Prop := ∀ t, (s.pc t).holds = true ↔ s.owner = some t

omit [DecidableEq T] in
theorem Exclusive.eq (h : Exclusive s) (ht : (s.pc t).holds = true) (hu : (s.pc u).holds = true) :
    t = u :=
  Option.some.inj (((h t).mp ht).symm.trans ((h u).mp hu))

theorem Exclusive.of_same (h : Exclusive s) (hne : ∀ u, u ≠ t → s'.pc u = s.pc u)
    (hholds : (s'.pc t).holds = (s.pc t).holds) (howner : s'.owner = s.owner) : Exclusive s' := by
  intro u
  rw [howner]
  by_cases hut : u = t
  · rw [hut, hholds]
    exact h t
  · rw [hne u hut]
    exact h u

theorem Exclusive.step (h : Exclusive s) (hstep : Step strerror s t s') : Exclusive s' := by
  have hne := fun u (hut : u ≠ t) => hstep.pc_of_ne hut
  cases hstep with
  | call hpc =>
      refine h.of_same hne ?_ rfl
      rcases hpc with hpc | hpc <;> simp [hpc, ListPc.holds]
  | lock hpc hfree =>
      intro u
      by_cases hut : u = t
      · subst hut
        simp [ListPc.holds]
      · rw [hne u hut, h u, hfree]
        simpa using Ne.symm hut
  | test hpc =>
      refine h.of_same hne ?_ rfl
      cases s.first <;> simp [hpc, ListPc.holds]
  | fill i room hpc hi => exact h.of_same hne (by simp [hpc, ListPc.holds]) rfl
  | leave i hpc hi => exact h.of_same hne (by simp [hpc, ListPc.holds]) rfl
  | clear hpc => exact h.of_same hne (by simp [hpc, ListPc.holds]) rfl
  | unlock hpc =>
      intro u
      by_cases hut : u = t
      · subst hut
        simp [ListPc.holds]
      · have hinside := (h t).mp (by rw [hpc]; rfl)
        rw [hne u hut, h u, hinside]
        simpa using Ne.symm hut

omit [DecidableEq T] in
theorem Exclusive.owner (h : Exclusive s) (hin : (s.pc t).holds = true) : s.owner = some t :=
  (h t).mp hin

/-! ### How much of the list there is -/

def written : ListPc → ℕ
  | .filling i => i
  | .filled => NUM_ERRORS
  | _ => 0

def progress (s : ListState T) : ℕ :=
  if s.first then s.owner.elim 0 fun t => written (s.pc t) else NUM_ERRORS

/-- The list is filled from the beginning, by the one thread that finds that it is the
first, and each entry is written once. -/
structure Once (strerror : ℕ → CText) (s : ListState T) : Prop where
  exclusive : Exclusive s
  knows : ∀ t, (s.pc t).Knows s.first
  writes : ∀ i, s.writes i = if i < s.progress then 1 else 0
  entry : ∀ i, s.errlist i = none ∨ s.errlist i = some (strerror i)

omit [DecidableEq T] in
theorem once_start (strerror : ℕ → CText) : Once strerror (start : ListState T) where
  exclusive := fun t => by simp [start, ListPc.holds]
  knows := fun _ => trivial
  writes := fun _ => rfl
  entry := fun _ => .inl rfl

omit [DecidableEq T] in
theorem progress_inside (hfirst : s.first = true) (howner : s.owner = some t) :
    s.progress = written (s.pc t) := by
  rw [progress, if_pos hfirst, howner]
  rfl

omit [DecidableEq T] in
theorem progress_done (hfirst : s.first = false) : s.progress = NUM_ERRORS := by
  rw [progress, if_neg (by simp [hfirst])]

theorem Once.knows_step (h : Once strerror s) (hstep : Step strerror s t s') (u : T) :
    (s'.pc u).Knows s'.first := by
  have hne := fun (hut : u ≠ t) => hstep.pc_of_ne hut
  have hu := h.knows u
  by_cases hut : u = t
  · subst hut
    cases hstep with
    | call hpc => simp [ListPc.Knows]
    | lock hpc hfree => simp [ListPc.Knows]
    | test hpc => cases hfirst : s.first <;> simp [hfirst, goto, ListPc.Knows]
    | fill i room hpc hi =>
        rw [hpc] at hu
        simpa [ListPc.Knows] using ⟨hu.1, Nat.succ_le_of_lt hi⟩
    | leave i hpc hi =>
        rw [hpc] at hu
        simpa [ListPc.Knows] using hu.1
    | clear hpc => simp [ListPc.Knows]
    | unlock hpc =>
        rw [hpc] at hu
        simpa [ListPc.Knows] using hu
  · rw [hne hut]
    cases hstep with
    | clear hpc =>
        -- `first` is cleared by the thread inside, and `u` is outside
        have hin : (s.pc t).holds = true := by rw [hpc]; rfl
        cases hpu : s.pc u with
        | filling i => exact absurd (h.exclusive.eq (by rw [hpu]; rfl) hin) hut
        | filled => exact absurd (h.exclusive.eq (by rw [hpu]; rfl) hin) hut
        | _ => trivial
    | _ => exact hu

/-- The steps outside the loop and a turn of it. -/
theorem Once.progress_step (h : Once strerror s) (hstep : Step strerror s t s') :
    (s'.progress = s.progress ∧ s'.writes = s.writes ∧ s'.errlist = s.errlist) ∨
      ∃ (i : ℕ) (room : Bool), s.first = true ∧ s.progress = i ∧ s'.progress = i + 1 ∧
        s' = (s.write i (if room then some (strerror i) else none)).goto t (.filling (i + 1)) := by
  have ht := h.knows t
  have hin := h.exclusive t
  cases hstep with
  | call hpc =>
      refine .inl ⟨?_, rfl, rfl⟩
      have hout : s.owner ≠ some t := fun howner => by
        rcases hpc with hpc | hpc <;> rw [hpc] at hin <;> cases hin.mpr howner
      cases howner : s.owner with
      | none => simp [progress, howner]
      | some u =>
          have hne : u ≠ t := fun hut => hout (by rw [howner, hut])
          simp [progress, howner, goto_pc_of_ne hne]
  | lock hpc hfree => exact .inl ⟨by simp [progress, hfree, written], rfl, rfl⟩
  | test hpc =>
      rw [hpc] at hin
      refine .inl ⟨?_, rfl, rfl⟩
      cases hfirst : s.first with
      | true => simp [progress, hfirst, hin.mp rfl, hpc, written]
      | false => simp [progress, hfirst]
  | fill i room hpc hi =>
      rw [hpc] at hin ht
      refine .inr ⟨i, room, ht.1, ?_, ?_, rfl⟩
      · rw [progress_inside ht.1 (hin.mp rfl), hpc]
        rfl
      · rw [progress_inside (t := t) (by exact ht.1) (by exact hin.mp rfl)]
        simp [written]
  | leave i hpc hi =>
      rw [hpc] at hin ht
      refine .inl ⟨?_, rfl, rfl⟩
      rw [progress_inside ht.1 (hin.mp rfl), hpc,
        progress_inside (t := t) (by exact ht.1) (by exact hin.mp rfl), goto_pc_self]
      exact le_antisymm (Nat.not_lt.mp hi) ht.2
  | clear hpc =>
      rw [hpc] at hin ht
      refine .inl ⟨?_, rfl, rfl⟩
      rw [progress_inside ht (hin.mp rfl), hpc]
      rfl
  | unlock hpc =>
      rw [hpc] at ht
      exact .inl ⟨(progress_done (by exact ht)).trans (progress_done (by exact ht)).symm, rfl, rfl⟩

theorem Once.step (h : Once strerror s) (hstep : Step strerror s t s') : Once strerror s' := by
  refine ⟨h.exclusive.step hstep, h.knows_step hstep, ?_, ?_⟩
  · obtain ⟨hp, hw, -⟩ | ⟨i, room, -, hp, hp', rfl⟩ := h.progress_step hstep
    · rw [hp, hw]
      exact h.writes
    · intro j
      rw [hp', goto_writes, write]
      by_cases hj : j = i
      · subst hj
        simp [h.writes, hp]
      · simp only [Function.update_of_ne hj, h.writes, hp]
        congr 1
        simp only [eq_iff_iff]
        omega
  · obtain ⟨-, -, he⟩ | ⟨i, room, -, -, -, rfl⟩ := h.progress_step hstep
    · rw [he]
      exact h.entry
    · intro j
      rw [goto_errlist, write]
      by_cases hj : j = i
      · subst hj
        cases room <;> simp
      · simp only [Function.update_of_ne hj]
        exact h.entry j

/-! ### Every run -/

theorem Once.run (h : Once strerror s) (hrun : Relation.ReflTransGen (Next strerror) s s') :
    Once strerror s' := by
  induction hrun with
  | refl => exact h
  | tail _ hnext ih =>
      obtain ⟨t, hstep⟩ := hnext
      exact ih.step hstep

theorem Reached.once (h : Reached strerror s) : Once strerror s := (once_start strerror).run h

/-- A list that is finished stays as it is. -/
theorem Once.finished_step (h : Once strerror s) (hfirst : s.first = false)
    (hstep : Step strerror s t s') : s'.first = false ∧ s'.errlist = s.errlist := by
  obtain ⟨-, -, he⟩ | ⟨i, room, hfilling, -⟩ := h.progress_step hstep
  · refine ⟨?_, he⟩
    cases hstep <;> first | exact hfirst | rfl
  · rw [hfirst] at hfilling
    cases hfilling

theorem Once.finished (h : Once strerror s) (hfirst : s.first = false)
    (hrun : Relation.ReflTransGen (Next strerror) s s') :
    s'.first = false ∧ s'.errlist = s.errlist := by
  induction hrun with
  | refl => exact ⟨hfirst, rfl⟩
  | tail hrun hnext ih =>
      obtain ⟨t, hstep⟩ := hnext
      obtain ⟨hdone, he⟩ := ih
      obtain ⟨hdone', he'⟩ := (h.run hrun).finished_step hdone hstep
      exact ⟨hdone', he'.trans he⟩

/-! ### Every call returns -/

def left : ListPc → ℕ
  | .locked => NUM_ERRORS + 4
  | .filling i => NUM_ERRORS + 3 - i
  | .filled => 2
  | _ => 1

theorem Once.goes_on (strerror : ℕ → CText) (h : Once strerror s)
    (hin : (s.pc t).holds = true) : ∃ s', Step strerror s t s' ∧
      (s'.pc t = .returned ∧ s'.owner = none ∨
        (s'.pc t).holds = true ∧ left (s'.pc t) < left (s.pc t)) := by
  have ht := h.knows t
  cases hpc : s.pc t with
  | idle => rw [hpc] at hin; cases hin
  | calling => rw [hpc] at hin; cases hin
  | returned => rw [hpc] at hin; cases hin
  | locked =>
      refine ⟨_, .test hpc, .inr ?_⟩
      cases s.first <;> simp [ListPc.holds, left]
  | filling i =>
      rw [hpc] at ht
      by_cases hi : i < NUM_ERRORS
      · refine ⟨_, .fill i true hpc hi, .inr ?_⟩
        simp only [goto_pc_self, left]
        exact ⟨rfl, by omega⟩
      · refine ⟨_, .leave i hpc hi, .inr ?_⟩
        have hle := ht.2
        simp only [goto_pc_self, left]
        exact ⟨rfl, by omega⟩
  | filled => exact ⟨_, .clear hpc, .inr (by simp [ListPc.holds, left])⟩
  | done => exact ⟨_, .unlock hpc, .inl ⟨goto_pc_self, rfl⟩⟩

/-- The thread inside can come out, and meanwhile the others stay where they are. -/
theorem Once.comes_out (h : Once strerror s) (hin : (s.pc t).holds = true) :
    ∃ s', Relation.ReflTransGen (Next strerror) s s' ∧ s'.pc t = .returned ∧ s'.owner = none ∧
      ∀ u, u ≠ t → s'.pc u = s.pc u := by
  induction hn : left (s.pc t) using Nat.strong_induction_on generalizing s with
  | _ n ih =>
      subst hn
      obtain ⟨s', hstep, ⟨hout, hfree⟩ | ⟨hin', hless⟩⟩ := h.goes_on strerror hin
      · exact ⟨s', .single ⟨t, hstep⟩, hout, hfree, fun u hut => hstep.pc_of_ne hut⟩
      · obtain ⟨s'', hrun, hout, hfree, hne⟩ := ih _ hless (h.step hstep) hin' rfl
        exact ⟨s'', .head ⟨t, hstep⟩ hrun, hout, hfree,
          fun u hut => (hne u hut).trans (hstep.pc_of_ne hut)⟩

theorem Once.called_returns (h : Once strerror s) (hpc : s.pc t = .calling) :
    ∃ s', Relation.ReflTransGen (Next strerror) s s' ∧ s'.pc t = .returned := by
  -- a thread that finds the mutex free goes in and comes out
  have hfree : ∀ s : ListState T, Once strerror s → s.pc t = .calling → s.owner = none →
      ∃ s', Relation.ReflTransGen (Next strerror) s s' ∧ s'.pc t = .returned :=
    fun s h hpc hfree => by
      have hlock : Step strerror s t _ := .lock hpc hfree
      obtain ⟨s', hrun, hout, -⟩ := (h.step hlock).comes_out (t := t) (by simp [ListPc.holds])
      exact ⟨s', .head ⟨t, hlock⟩ hrun, hout⟩
  cases howner : s.owner with
  | none => exact hfree s h hpc howner
  | some u =>
      have hin := (h.exclusive u).mpr howner
      have hut : t ≠ u := fun hut => by
        rw [← hut, hpc] at hin
        cases hin
      obtain ⟨s', hrun, -, hfree', hne⟩ := h.comes_out hin
      obtain ⟨s'', hrun', hout⟩ := hfree s' (h.run hrun) ((hne t hut).trans hpc) hfree'
      exact ⟨s'', hrun.trans hrun', hout⟩

/-- One thread at a time is inside, and no entry is written twice. A thread that has returned
has a list in which every entry is written, with the system's text or null, and that no
later step changes, and a thread that calls can always return. -/
theorem sysErrList_once (h : Reached strerror s) :
    (∀ t u, (s.pc t).holds = true → (s.pc u).holds = true → t = u) ∧
      (∀ i, s.writes i ≤ 1) ∧
      (∀ t, s.pc t = .returned →
        (∀ i < NUM_ERRORS,
          s.writes i = 1 ∧ (s.errlist i = none ∨ s.errlist i = some (strerror i))) ∧
        ∀ s', Relation.ReflTransGen (Next strerror) s s' → s'.errlist = s.errlist) ∧
      ∀ t, s.pc t = .calling →
        ∃ s', Relation.ReflTransGen (Next strerror) s s' ∧ s'.pc t = .returned := by
  have honce := h.once
  refine ⟨fun t u ht hu => honce.exclusive.eq ht hu, fun i => ?_, fun t hpc => ?_,
    fun t hpc => honce.called_returns hpc⟩
  · rw [honce.writes]
    split <;> omega
  · have hfirst := honce.knows t
    rw [hpc] at hfirst
    refine ⟨fun i hi => ⟨?_, honce.entry i⟩, fun s' hrun => (honce.finished hfirst hrun).2⟩
    rw [honce.writes, progress_done hfirst, if_pos hi]

/-- Of two threads that have called, one has returned with the list, and the other is still in
front of the lock. -/
theorem sysErrList_once_two : ∃ s : ListState Bool,
    Reached (fun _ => .empty) s ∧ s.pc true = .returned ∧ s.pc false = .calling ∧
      (∀ i < NUM_ERRORS, s.writes i = 1) ∧
      ∃ s', Relation.ReflTransGen (Next fun _ => .empty) s s' ∧ s'.pc false = .returned := by
  let called : ListState Bool := ((start : ListState Bool).goto true .calling).goto false .calling
  have hcalled : Reached (fun _ => .empty) called :=
    .tail (.single ⟨true, .call (.inl rfl)⟩) ⟨false, .call (.inl rfl)⟩
  have hlock : Step (fun _ => .empty) called true
      ({ called with owner := some true }.goto true .locked) := .lock rfl rfl
  obtain ⟨s, hrun, hout, -, hother⟩ :=
    (hcalled.once.step hlock).comes_out (t := true) (by simp [ListPc.holds])
  have hreached : Reached (fun _ => .empty) s := (hcalled.tail ⟨true, hlock⟩).trans hrun
  have hwaits : s.pc false = .calling := hother false (by decide)
  obtain ⟨-, -, hlist, hreturn⟩ := sysErrList_once hreached
  exact ⟨s, hreached, hout, hwaits, fun i hi => ((hlist true hout).1 i hi).1, hreturn false hwaits⟩

end ListState

end I2util
