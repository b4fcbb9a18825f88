import I2util.Library.Runs
import I2util.Log.Event
import Mathlib.Logic.Function.Basic

/-!
The mutex of `ErrLog.c`, in a build with threads.

A macro calls `I2ErrLocation_`, which locks the mutex and writes the location, and then
the function that logs, which unlocks it. Any threads make such calls, in any order of
their steps. The log function returns, and it does not log itself.
-/

namespace I2util

/-! ### The calls -/

/-- What a call of one of the macros reads. `vsnprintf` is its text for a given error
code. -/
structure LogArgs where
  loc : ErrLocation
  eh : Option (List UInt8)
  errno : ℤ
  vsnprintf : ℤ → List UInt8

inductive LogCall
  | I2ErrLog (args : LogArgs)
  | I2ErrLogP (args : LogArgs) (code : ℤ)
  | I2ErrLogT (args : LogArgs) (level code : ℤ)

namespace LogCall

def args : LogCall → LogArgs
  | I2ErrLog args => args
  | I2ErrLogP args _ => args
  | I2ErrLogT args _ _ => args

def level : LogCall → ℤ
  | I2ErrLog _ => -1
  | I2ErrLogP _ _ => -1
  | I2ErrLogT _ level _ => level

def code : LogCall → ℤ
  | I2ErrLog _ => 0
  | I2ErrLogP _ code => code
  | I2ErrLogT _ _ code => code

end LogCall

/-- Where a thread is: outside of the macros, in front of the lock, behind it, at the
beginning of `I2ErrLogVT`, and in front of the unlock. -/
inductive LogPc
  | idle
  | location (c : LogCall)
  | locked (c : LogCall)
  | entered (c : LogCall)
  | logged (c : LogCall)

namespace LogPc

def holds : LogPc → Bool
  | idle => false
  | location _ => false
  | locked _ => true
  | entered _ => true
  | logged _ => true

def stepsLeft : LogPc → ℕ
  | idle => 0
  | location _ => 4
  | locked _ => 3
  | entered _ => 2
  | logged _ => 1

end LogPc

/-- The mutex, the threads, the static variables, and what was done with the messages. -/
structure LogState (T : Type*) where
  owner : Option T
  pc : T → LogPc
  location : ErrLocation
  logged : List ErrLogged

variable {T : Type*} [DecidableEq T]

namespace LogState

def goto (s : LogState T) (t : T) (p : LogPc) : LogState T :=
  { s with pc := Function.update s.pc t p }

/-- The next step of the thread `t`, which makes the call `next` if it is in none. There is
no step for a thread that waits for the mutex. -/
def step (s : LogState T) (t : T) (next : LogCall) : Option (LogState T) :=
  match s.pc t with
  | .idle => some (s.goto t (.location next))
  | .location c =>
      if s.owner.isNone then some { s.goto t (.locked c) with owner := some t } else none
  | .locked c => some { s.goto t (.entered c) with location := c.args.loc }
  | .entered c =>
      -- this return does not unlock
      if c.level = I2LOG_NONE then some (s.goto t .idle)
      else
        some { s.goto t (.logged c) with
          logged := s.logged ++
            [i2ErrLogVT c.args.eh s.location c.args.errno c.level c.code c.args.vsnprintf] }
  | .logged _ => some { s.goto t .idle with owner := none }

end LogState

def LogStart (s : LogState T) : Prop := s.owner = none ∧ ∀ t, s.pc t = .idle

def LogRun (ok : LogCall → Prop) (run : ℕ → LogState T) : Prop :=
  Runs.IsRun LogStart (fun s s' => ∃ t next, ok next ∧ s.step t next = some s') run

/-- A thread that has the mutex goes on, and a thread does not wait for ever for a mutex
that is free again and again. -/
structure LogFair (run : ℕ → LogState T) : Prop where
  goes_on : ∀ n t, ((run n).pc t).holds = true →
    ∃ m, n ≤ m ∧ (run (m + 1)).pc t ≠ (run m).pc t
  gets : ∀ n t c, (∀ m, n ≤ m → (run m).pc t = .location c) →
    ∃ k, ∀ m, k ≤ m → (run m).owner ≠ none

/-! ### The steps -/

inductive LogStep (ok : LogCall → Prop) (s : LogState T) (t : T) : LogState T → Prop
  | call (next : LogCall) (hok : ok next) (hpc : s.pc t = .idle) :
      LogStep ok s t (s.goto t (.location next))
  | lock (c : LogCall) (hpc : s.pc t = .location c) (hfree : s.owner = none) :
      LogStep ok s t { s.goto t (.locked c) with owner := some t }
  | store (c : LogCall) (hpc : s.pc t = .locked c) :
      LogStep ok s t { s.goto t (.entered c) with location := c.args.loc }
  | quit (c : LogCall) (hpc : s.pc t = .entered c) (hlevel : c.level = I2LOG_NONE) :
      LogStep ok s t (s.goto t .idle)
  | log (c : LogCall) (hpc : s.pc t = .entered c) (hlevel : c.level ≠ I2LOG_NONE) :
      LogStep ok s t { s.goto t (.logged c) with
        logged := s.logged ++
          [i2ErrLogVT c.args.eh s.location c.args.errno c.level c.code c.args.vsnprintf] }
  | unlock (c : LogCall) (hpc : s.pc t = .logged c) :
      LogStep ok s t { s.goto t .idle with owner := none }

variable {ok : LogCall → Prop} {s s' : LogState T} {t u : T} {c next : LogCall} {p : LogPc}

@[simp] theorem LogState.goto_pc_self : (s.goto t p).pc t = p := by
  show Function.update s.pc t p t = p
  exact Function.update_self ..

@[simp] theorem LogState.goto_pc_of_ne (h : u ≠ t) : (s.goto t p).pc u = s.pc u := by
  show Function.update s.pc t p u = s.pc u
  exact Function.update_of_ne h ..

theorem LogStep.of_step (hok : ok next) (h : s.step t next = some s') : LogStep ok s t s' := by
  rw [LogState.step] at h
  cases hpc : s.pc t with
  | idle =>
      rw [hpc] at h
      obtain rfl := Option.some.inj h
      exact .call next hok hpc
  | location c =>
      rw [hpc] at h
      simp only [Option.isNone_iff_eq_none] at h
      split at h
      · obtain rfl := Option.some.inj h
        exact .lock c hpc ‹_›
      · cases h
  | locked c =>
      rw [hpc] at h
      obtain rfl := Option.some.inj h
      exact .store c hpc
  | entered c =>
      rw [hpc] at h
      simp only at h
      split at h
      · obtain rfl := Option.some.inj h
        exact .quit c hpc ‹_›
      · obtain rfl := Option.some.inj h
        exact .log c hpc ‹_›
  | logged c =>
      rw [hpc] at h
      obtain rfl := Option.some.inj h
      exact .unlock c hpc

/-- A step leaves the other threads where they are. -/
theorem LogStep.pc_of_ne (h : LogStep ok s t s') (hne : u ≠ t) : s'.pc u = s.pc u := by
  cases h <;> exact LogState.goto_pc_of_ne hne

/-- The mutex changes hands in two places. -/
theorem LogStep.owner_cases (h : LogStep ok s t s') :
    s'.owner = s.owner ∨ (s.owner = none ∧ s'.owner = some t) ∨
      ((s.pc t).holds = true ∧ s'.owner = none) := by
  cases h with
  | call next hok hpc => exact .inl rfl
  | lock c hpc hfree => exact .inr (.inl ⟨hfree, rfl⟩)
  | store c hpc => exact .inl rfl
  | quit c hpc hlevel => exact .inl rfl
  | log c hpc hlevel => exact .inl rfl
  | unlock c hpc =>
      rw [hpc]
      exact .inr (.inr ⟨rfl, rfl⟩)

/-- The static variables are written by a thread that has locked the mutex. -/
theorem LogStep.location_cases (h : LogStep ok s t s') :
    s'.location = s.location ∨ (s.pc t).holds = true := by
  cases h with
  | store c hpc =>
      rw [hpc]
      exact .inr rfl
  | call next hok hpc => exact .inl rfl
  | lock c hpc hfree => exact .inl rfl
  | quit c hpc hlevel => exact .inl rfl
  | log c hpc hlevel => exact .inl rfl
  | unlock c hpc => exact .inl rfl

/-- The step of a thread in front of the lock. -/
theorem LogStep.of_location (h : LogStep ok s t s') (hpc : s.pc t = .location c) :
    s' = { s.goto t (.locked c) with owner := some t } := by
  cases h with
  | lock c' hpc' hfree =>
      obtain rfl := LogPc.location.inj (hpc.symm.trans hpc')
      rfl
  | call next hok hpc' => rw [hpc] at hpc'; cases hpc'
  | store c' hpc' => rw [hpc] at hpc'; cases hpc'
  | quit c' hpc' hlevel => rw [hpc] at hpc'; cases hpc'
  | log c' hpc' hlevel => rw [hpc] at hpc'; cases hpc'
  | unlock c' hpc' => rw [hpc] at hpc'; cases hpc'

/-- The step of a thread at the return that does not unlock. -/
theorem LogStep.of_none (h : LogStep ok s t s') (hpc : s.pc t = .entered c)
    (hnone : c.level = I2LOG_NONE) : s' = s.goto t .idle := by
  cases h with
  | quit c' hpc' hlevel => rfl
  | log c' hpc' hlevel =>
      obtain rfl := LogPc.entered.inj (hpc.symm.trans hpc')
      exact absurd hnone hlevel
  | call next hok hpc' => rw [hpc] at hpc'; cases hpc'
  | lock c' hpc' hfree => rw [hpc] at hpc'; cases hpc'
  | store c' hpc' => rw [hpc] at hpc'; cases hpc'
  | unlock c' hpc' => rw [hpc] at hpc'; cases hpc'

/-- With the mutex locked, a thread outside can begin a call and nothing else. -/
theorem LogStep.of_outside (h : LogStep ok s t s') (howner : s.owner = some u)
    (hout : (s.pc t).holds = false) : ∃ next, s' = s.goto t (.location next) := by
  cases h with
  | call next hok hpc => exact ⟨next, rfl⟩
  | lock c hpc hfree => rw [howner] at hfree; cases hfree
  | store c hpc => rw [hpc] at hout; cases hout
  | quit c hpc hlevel => rw [hpc] at hout; cases hout
  | log c hpc hlevel => rw [hpc] at hout; cases hout
  | unlock c hpc => rw [hpc] at hout; cases hout

theorem LogRun.turn {run : ℕ → LogState T} (h : LogRun ok run) (n : ℕ) :
    run (n + 1) = run n ∨ ∃ t, LogStep ok (run n) t (run (n + 1)) := by
  rcases Runs.IsRun.step h n with hsame | ⟨t, next, hok, hstep⟩
  · exact .inl hsame
  · exact .inr ⟨t, .of_step hok hstep⟩

/-- A thread that is somewhere else after a step has made it. -/
theorem LogRun.step_of_ne {run : ℕ → LogState T} (h : LogRun ok run) {n : ℕ}
    (hne : (run (n + 1)).pc t ≠ (run n).pc t) : LogStep ok (run n) t (run (n + 1)) := by
  rcases h.turn n with hsame | ⟨u, hstep⟩
  · exact absurd (congrArg (fun s => s.pc t) hsame) hne
  · by_cases hu : t = u
    · exact hu ▸ hstep
    · exact absurd (hstep.pc_of_ne hu) hne

/-! ### Who has the mutex -/

/-- A thread inside has the mutex, whatever the levels are. -/
def Exclusive (s : LogState T) : Prop := ∀ t, (s.pc t).holds = true → s.owner = some t

omit [DecidableEq T] in
theorem Exclusive.eq (h : Exclusive s) (ht : (s.pc t).holds = true)
    (hu : (s.pc u).holds = true) : t = u :=
  Option.some.inj ((h t ht).symm.trans (h u hu))

theorem Exclusive.step (h : Exclusive s) (hstep : LogStep ok s t s') : Exclusive s' := by
  intro u hu
  by_cases hut : u = t
  · subst hut
    cases hstep with
    | call next hok hpc => simp [LogPc.holds] at hu
    | lock c hpc hfree => rfl
    | store c hpc => exact h u (by rw [hpc]; rfl)
    | quit c hpc hlevel => simp [LogPc.holds] at hu
    | log c hpc hlevel => exact h u (by rw [hpc]; rfl)
    | unlock c hpc => simp [LogPc.holds] at hu
  · rw [hstep.pc_of_ne hut] at hu
    have howner := h u hu
    rcases hstep.owner_cases with hsame | ⟨hfree, -⟩ | ⟨hin, -⟩
    · rwa [hsame]
    · rw [hfree] at howner
      cases howner
    · exact absurd (h.eq hu hin) hut

/-- The mutex is with the thread inside, and the calls under way are of the kind. -/
structure Balanced (ok : LogCall → Prop) (s : LogState T) : Prop where
  exclusive : Exclusive s
  inside : ∀ t, s.owner = some t → (s.pc t).holds = true
  entered : ∀ t c, s.pc t = .location c ∨ s.pc t = .locked c ∨ s.pc t = .entered c → ok c

omit [DecidableEq T] in
theorem LogStart.balanced (ok : LogCall → Prop) (h : LogStart s) : Balanced ok s := by
  refine ⟨fun t ht => ?_, fun t ht => ?_, fun t c hc => ?_⟩
  · rw [h.2 t] at ht
    cases ht
  · rw [h.1] at ht
    cases ht
  · rw [h.2 t] at hc
    rcases hc with hc | hc | hc <;> cases hc

/-- Without the level that returns early, every step keeps the mutex with the thread
inside. -/
theorem Balanced.step (hlevel : ∀ c, ok c → c.level ≠ I2LOG_NONE) (h : Balanced ok s)
    (hstep : LogStep ok s t s') : Balanced ok s' := by
  refine ⟨h.exclusive.step hstep, fun u hu => ?_, fun u c hc => ?_⟩
  · by_cases hut : u = t
    · subst hut
      cases hstep with
      | call next hok hpc =>
          have hin := h.inside u hu
          rw [hpc] at hin
          cases hin
      | lock c hpc hfree => simp [LogPc.holds]
      | store c hpc => simp [LogPc.holds]
      | quit c hpc hnone => exact absurd hnone (hlevel c (h.entered u c (.inr (.inr hpc))))
      | log c hpc hnot => simp [LogPc.holds]
      | unlock c hpc => cases hu
    · rw [hstep.pc_of_ne hut]
      rcases hstep.owner_cases with hsame | ⟨-, hsome⟩ | ⟨-, hnone⟩
      · exact h.inside u (hsame ▸ hu)
      · exact absurd (Option.some.inj (hu.symm.trans hsome)) hut
      · rw [hnone] at hu
        cases hu
  · by_cases hut : u = t
    · subst hut
      cases hstep with
      | call next hok hpc => simp at hc; exact hc ▸ hok
      | lock c' hpc hfree => simp at hc; exact hc ▸ h.entered u c' (.inl hpc)
      | store c' hpc => simp at hc; exact hc ▸ h.entered u c' (.inr (.inl hpc))
      | quit c' hpc hnone => simp at hc
      | log c' hpc hnot => simp at hc
      | unlock c' hpc => simp at hc
    · rw [hstep.pc_of_ne hut] at hc
      exact h.entered u c hc

/-! ### Runs -/

section Run

variable {run : ℕ → LogState T} {n m : ℕ}

theorem LogRun.balanced (h : LogRun ok run) (hlevel : ∀ c, ok c → c.level ≠ I2LOG_NONE) (n : ℕ) :
    Balanced ok (run n) := by
  refine Runs.IsRun.always h (fun s hs => hs.balanced ok) ?_ n
  rintro s s' hs ⟨t, next, hok, hstep⟩
  exact hs.step hlevel (.of_step hok hstep)

theorem LogRun.exclusive (h : LogRun ok run) (n : ℕ) : Exclusive (run n) := by
  refine Runs.IsRun.always h (fun s hs => (hs.balanced ok).exclusive) ?_ n
  rintro s s' hs ⟨t, next, hok, hstep⟩
  exact hs.step (.of_step hok hstep)

/-- A thread that has the mutex gives it back. -/
theorem LogRun.released (h : LogRun ok run) (hlevel : ∀ c, ok c → c.level ≠ I2LOG_NONE)
    (hfair : LogFair run) (hin : ((run n).pc t).holds = true) :
    ∃ m, n ≤ m ∧ (run m).owner = none := by
  refine Runs.leads_to_of_rank (P := fun n => ((run n).pc t).holds = true)
    (fun n => ((run n).pc t).stepsLeft) (fun n hin => ?_) hin
  obtain ⟨m, hle, hsame, hne⟩ :=
    @Runs.exists_first_change _ _ (fun n => (run n).pc t) (hfair.goes_on n t hin)
  have hstep := h.step_of_ne hne
  have hbalanced := h.balanced hlevel m
  refine ⟨m + 1, Nat.le_succ_of_le hle, ?_⟩
  rw [← hsame] at hin ⊢
  generalize run (m + 1) = s' at hstep
  cases hstep with
  | call next hok hpc => rw [hpc] at hin; cases hin
  | lock c hpc hfree => rw [hpc] at hin; cases hin
  | store c hpc => right; simp [hpc, LogPc.holds, LogPc.stepsLeft]
  | quit c hpc hnone => exact absurd hnone (hlevel c (hbalanced.entered t c (.inr (.inr hpc))))
  | log c hpc hnot => right; simp [hpc, LogPc.holds, LogPc.stepsLeft]
  | unlock c hpc => exact .inl rfl

/-- A thread in front of the lock stays there until it gets the mutex. -/
theorem LogRun.waits (h : LogRun ok run) (hpc : (run n).pc t = .location c) :
    (run (n + 1)).pc t = .location c ∨ (run (n + 1)).pc t = .locked c := by
  by_cases hne : (run (n + 1)).pc t = (run n).pc t
  · exact .inl (hne.trans hpc)
  · right
    rw [(h.step_of_ne hne).of_location hpc]
    exact LogState.goto_pc_self

/-- As long as no call has the level that returns early, the mutex is with the call that has
got it and not returned yet, it is free when no call is under way, and every call gets it. -/
theorem log_mutex_released (run : ℕ → LogState T)
    (h : LogRun (fun c => c.level ≠ I2LOG_NONE) run) :
    (∀ n t, (run n).owner = some t ↔ ((run n).pc t).holds = true) ∧
      (∀ n t, (run n).pc t ≠ .idle → (run (n + 1)).pc t = .idle → (run (n + 1)).owner ≠ some t) ∧
      (∀ n, (∀ t, (run n).pc t = .idle) → (run n).owner = none) ∧
      (LogFair run → ∀ n t c, (run n).pc t = .location c →
        ∃ m, n ≤ m ∧ (run m).pc t = .locked c) := by
  have hbalanced := h.balanced fun _ hc => hc
  have howner : ∀ n t, (run n).owner = some t ↔ ((run n).pc t).holds = true := fun n t =>
    ⟨(hbalanced n).inside t, (hbalanced n).exclusive t⟩
  refine ⟨howner, ?_, ?_, ?_⟩
  · intro n t _ hidle hsome
    have hin := (howner (n + 1) t).mp hsome
    rw [hidle] at hin
    cases hin
  · intro n hidle
    cases hsome : (run n).owner with
    | none => rfl
    | some t =>
        have hin := (howner n t).mp hsome
        rw [hidle t] at hin
        cases hin
  · intro hfair n t c hpc
    by_contra hnever
    have hwaits : ∀ m, n ≤ m → (run m).pc t = .location c := by
      intro m hm
      induction m, hm using Nat.le_induction with
      | base => exact hpc
      | succ m hm ih =>
          rcases h.waits ih with hstays | hgot
          · exact hstays
          · exact absurd ⟨m + 1, Nat.le_succ_of_le hm, hgot⟩ hnever
    -- the mutex is free again and again
    obtain ⟨k, hk⟩ := hfair.gets n t c hwaits
    cases hsome : (run k).owner with
    | none => exact hk k (Nat.le_refl k) hsome
    | some u =>
        obtain ⟨m, hm, hfree⟩ := h.released (fun _ hc => hc) hfair ((howner k u).mp hsome)
        exact hk m hm hfree

/-- The mutex stays with a thread that has left its call with it. -/
theorem LogStep.keeps (h : LogStep ok s u s') (howner : s.owner = some t)
    (hout : ∀ v, (s.pc v).holds = false) :
    s'.owner = some t ∧ ∀ v, (s'.pc v).holds = false := by
  obtain ⟨next, rfl⟩ := h.of_outside howner (hout u)
  refine ⟨howner, fun v => ?_⟩
  by_cases hv : v = u
  · subst hv
    simp [LogPc.holds]
  · rw [LogState.goto_pc_of_ne hv]
    exact hout v

/-- Once a call with the level that returns early has gone on from the test, its thread
keeps the mutex, and no call gets it. -/
theorem LogRun.quit_keeps (h : LogRun ok run) (hpc : (run n).pc t = .entered c)
    (hnone : c.level = I2LOG_NONE) (hne : (run (n + 1)).pc t ≠ (run n).pc t) (hm : n < m) :
    (run m).owner = some t ∧ ∀ u, ((run m).pc u).holds = false := by
  refine Runs.IsRun.always_from h (I := fun s => s.owner = some t ∧ ∀ u, (s.pc u).holds = false)
    ?_ ?_ hm
  · have hexclusive := h.exclusive n
    have hin : ((run n).pc t).holds = true := by rw [hpc]; rfl
    rw [(h.step_of_ne hne).of_none hpc hnone]
    refine ⟨hexclusive t hin, fun u => ?_⟩
    by_cases hut : u = t
    · subst hut
      simp [LogPc.holds]
    · rw [LogState.goto_pc_of_ne hut]
      by_contra hu
      exact hut (hexclusive.eq (eq_true_of_ne_false hu) hin)
  · rintro s s' ⟨howner, hout⟩ ⟨u, next, hok, hstep⟩
    exact (LogStep.of_step hok hstep).keeps howner hout

def OwnLocation (s : LogState T) : Prop := ∀ t c, s.pc t = .entered c → s.location = c.args.loc

theorem OwnLocation.step (h : OwnLocation s) (hexclusive : Exclusive s)
    (hstep : LogStep ok s t s') : OwnLocation s' := by
  intro u c hc
  by_cases hut : u = t
  · subst hut
    cases hstep with
    | store c' hpc =>
        simp only [LogState.goto_pc_self] at hc
        exact LogPc.entered.inj hc ▸ rfl
    | call next hok hpc => simp at hc
    | lock c' hpc hfree => simp at hc
    | quit c' hpc hlevel => simp at hc
    | log c' hpc hlevel => simp at hc
    | unlock c' hpc => simp at hc
  · rw [hstep.pc_of_ne hut] at hc
    rcases hstep.location_cases with hsame | hin
    · rw [hsame]
      exact h u c hc
    · exact absurd (hexclusive.eq (by rw [hc]; rfl) hin) hut

/-- Every message is logged with the location of its own call: nobody writes the static
variables between the macro's call that writes them and the one that reads them. -/
theorem LogRun.own_location (h : LogRun ok run) (hpc : (run n).pc t = .entered c) :
    (run n).location = c.args.loc := by
  have hown : Exclusive (run n) ∧ OwnLocation (run n) := by
    refine Runs.IsRun.always h (I := fun s => Exclusive s ∧ OwnLocation s) (fun s hs => ?_) ?_ n
    · refine ⟨(hs.balanced ok).exclusive, fun t c hc => ?_⟩
      rw [hs.2 t] at hc
      cases hc
    · rintro s s' ⟨hexclusive, hloc⟩ ⟨t, next, hok, hstep⟩
      have hstep := LogStep.of_step hok hstep
      exact ⟨hexclusive.step hstep, hloc.step hexclusive hstep⟩
  exact hown.2 t c hpc

end Run

/-! ### Schedules -/

def LogState.after (s : LogState T) (schedule : List (T × LogCall)) : ℕ → LogState T :=
  Runs.follow (fun s entry => s.step entry.1 entry.2) s schedule

theorem LogState.after_run {schedule : List (T × LogCall)} (hs : LogStart s)
    (hok : ∀ entry ∈ schedule, ok entry.2) : LogRun ok (s.after schedule) :=
  Runs.follow_isRun hs fun entry hentry _ _ h => ⟨entry.1, entry.2, hok entry hentry, h⟩

/-- Two threads, with a null handle and with a handle, and a level of `<syslog.h>`. -/
def twoCalls : List (Bool × LogCall) :=
  let first := LogCall.I2ErrLogT ⟨⟨ascii "a.c", [], 1⟩, none, 0, fun _ => []⟩ 3 0
  let second := LogCall.I2ErrLog ⟨⟨ascii "b.c", [], 2⟩, some (ascii "prog"), 0, fun _ => []⟩
  [(false, first), (true, second), (false, first), (false, first), (false, first), (false, first),
    (true, second), (true, second), (true, second), (true, second)]

def noneCall : List (Bool × LogCall) :=
  let first := LogCall.I2ErrLogT ⟨⟨ascii "a.c", [], 1⟩, none, 0, fun _ => []⟩ I2LOG_NONE 0
  let second := LogCall.I2ErrLog ⟨⟨ascii "b.c", [], 2⟩, none, 0, fun _ => []⟩
  [(false, first), (false, first), (false, first), (false, first), (true, second)]

def logStart : LogState Bool := ⟨none, fun _ => .idle, ⟨[], [], 0⟩, []⟩

theorem logStart_start : LogStart logStart := ⟨rfl, fun _ => rfl⟩

theorem twoCalls_fair : LogFair (logStart.after twoCalls) := by
  have hend : ∀ n, 10 ≤ n → logStart.after twoCalls n = logStart.after twoCalls 10 := fun n hn =>
    Runs.follow_of_length_le hn
  have hfirst : ∀ n < 10, 5 < n → ((logStart.after twoCalls n).pc false).holds = false := by decide
  refine ⟨fun n t hin => ?_, fun n t c hwaits => ?_⟩
  · have hless : n < 10 := by
      by_contra hge
      rw [hend n (by omega)] at hin
      cases t <;> cases hin
    cases t with
    | false =>
        have hle : n ≤ 5 := by
          by_contra hgt
          rw [hfirst n hless (by omega)] at hin
          cases hin
        exact ⟨5, hle, fun heq => by cases heq⟩
    | true => exact ⟨9, by omega, fun heq => by cases heq⟩
  · have hpc := hwaits (n + 10) (by omega)
    rw [hend (n + 10) (by omega)] at hpc
    cases t <;> cases hpc

theorem noneCall_fair : LogFair (logStart.after noneCall) := by
  have hend : ∀ n, 5 ≤ n → logStart.after noneCall n = logStart.after noneCall 5 := fun n hn =>
    Runs.follow_of_length_le hn
  have hsecond : ∀ n < 5, ((logStart.after noneCall n).pc true).holds = false := by decide
  refine ⟨fun n t hin => ?_, fun n t c hwaits => ⟨5, fun m hm hfree => ?_⟩⟩
  · have hless : n < 5 := by
      by_contra hge
      rw [hend n (by omega)] at hin
      cases t <;> cases hin
    cases t with
    | false =>
        have hle : n ≤ 3 := by
          by_contra hgt
          obtain rfl : n = 4 := by omega
          cases hin
        exact ⟨3, hle, fun heq => by cases heq⟩
    | true =>
        rw [hsecond n hless] at hin
        cases hin
  · rw [hend m hm] at hfree
    cases hfree

theorem log_mutex_released_two :
    (logStart.after twoCalls 10).owner = none ∧
      ∃ m, 2 ≤ m ∧ (logStart.after twoCalls m).pc true =
        .locked (.I2ErrLog ⟨⟨ascii "b.c", [], 2⟩, some (ascii "prog"), 0, fun _ => []⟩) := by
  have hrun : LogRun (fun c => c.level ≠ I2LOG_NONE) (logStart.after twoCalls) :=
    LogState.after_run logStart_start (by decide)
  obtain ⟨-, -, hfree, hgets⟩ := log_mutex_released (logStart.after twoCalls) hrun
  refine ⟨hfree 10 (fun t => by cases t <;> rfl), hgets twoCalls_fair 2 true _ rfl⟩

/-- A call with the level that returns early: no call is under way, the mutex is locked, and
the next call waits for ever. -/
theorem log_none_keeps_mutex :
    LogRun (fun _ => True) (logStart.after noneCall) ∧ LogFair (logStart.after noneCall) ∧
      (∀ t, (logStart.after noneCall 4).pc t = .idle) ∧
      (logStart.after noneCall 4).owner = some false ∧
      ∃ c, ∀ m, 5 ≤ m → (logStart.after noneCall m).pc true = .location c := by
  refine ⟨LogState.after_run logStart_start fun _ _ => trivial, noneCall_fair,
    fun t => by cases t <;> rfl, rfl,
    .I2ErrLog ⟨⟨ascii "b.c", [], 2⟩, none, 0, fun _ => []⟩, fun m hm => ?_⟩
  rw [LogState.after, Runs.follow_of_length_le (show noneCall.length ≤ m from hm)]
  rfl

end I2util
