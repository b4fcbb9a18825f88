import I2util.Log.Mutex
import I2util.Log.Syslog

/-!
What the threads print, in a build with threads.

A message is printed in pieces: two calls of `fwrite` for a null handle, and one call of
`fprintf` for each part of a line in `I2ErrLogImmediate`. The steps of other threads come
between the pieces. This model refines the one of the mutex, where a message is logged in
one step.
-/

namespace I2util

abbrev I2NONL : UInt64 := 256

/-- The streams that can be printed to are of the type `F`. -/
structure I2LogImmediateAttr (F : Type*) where
  fp : Option F
  line_info : UInt64

/-- The texts of the calls of `fprintf`, in their order. -/
def i2ErrLogImmediate {F : Type*} (ev : I2ErrLogEvent) (la : I2LogImmediateAttr F)
    (ftime : List UInt8) : List (F × List UInt8) :=
  match la.fp with
  | none => []
  | some fp =>
      let texts :=
        eventPieces (ev.mask &&& la.line_info) la.line_info ev ftime ++
        (if ev.mask &&& la.line_info &&& I2MSG ≠ 0 then [ev.msg] else []) ++
        (if la.line_info ≠ 0 ∧ la.line_info &&& I2NONL = 0 then [[nl]] else [])
      texts.map fun text => (fp, text)

/-! ### The calls -/

structure ImmediateHandle (F : Type*) where
  program_name : List UInt8
  la : I2LogImmediateAttr F

/-- A call of one of the three macros, which differ in the level and the code that they pass
on. `ftime` belongs to the time of the call. -/
structure PrintCall (H : Type*) where
  eh : Option H
  loc : ErrLocation
  errno : ℤ
  level : ℤ
  code : ℤ
  vsnprintf : ℤ → List UInt8
  ftime : List UInt8

/-- The handles, and the stream that a null handle prints to. -/
structure PrintEnv (H F : Type*) where
  handle : H → ImmediateHandle F
  stderr : F

variable {T H F : Type*}

namespace PrintCall

def toLogCall (env : PrintEnv H F) (c : PrintCall H) : LogCall :=
  .I2ErrLogT ⟨c.loc, c.eh.map fun h => (env.handle h).program_name, c.errno, c.vsnprintf⟩ c.level
    c.code

/-- What `I2ErrLogVT` does with the message, when it reads this location. -/
def logged (env : PrintEnv H F) (c : PrintCall H) (loc : ErrLocation) : ErrLogged :=
  i2ErrLogVT (c.eh.map fun h => (env.handle h).program_name) loc c.errno c.level c.code c.vsnprintf

def pieces (env : PrintEnv H F) (c : PrintCall H) (loc : ErrLocation) : List (F × List UInt8) :=
  match c.logged env loc with
  | .nothing => []
  -- the newline is written on its own
  | .stderr buf => [(env.stderr, buf.dropLast), (env.stderr, [nl])]
  | .log_func ev => c.eh.elim [] fun h => i2ErrLogImmediate ev (env.handle h).la c.ftime

def kept (c : PrintCall H) : ℤ := if c.code = 0 then c.errno else c.code

end PrintCall

/-- Where a thread is. One that prints has some pieces left. -/
inductive PrintPc (H F : Type*)
  | idle
  | location (c : PrintCall H)
  | locked (c : PrintCall H)
  | entered (c : PrintCall H)
  | printing (c : PrintCall H) (left : List (F × List UInt8))

/-- `out` is what has been printed to each stream, and `codes` are the codes in the handles.
`made` are the messages, each with the location that was read for it. -/
structure PrintState (T H F : Type*) where
  owner : Option T
  pc : T → PrintPc H F
  location : ErrLocation
  made : List (PrintCall H × ErrLocation)
  codes : H → ℤ
  out : F → List UInt8

namespace PrintState

def goto [DecidableEq T] (s : PrintState T H F) (t : T) (p : PrintPc H F) : PrintState T H F :=
  { s with pc := Function.update s.pc t p }

def print [DecidableEq F] (s : PrintState T H F) (piece : F × List UInt8) : PrintState T H F :=
  { s with out := Function.update s.out piece.1 (s.out piece.1 ++ piece.2) }

/-- The next step of the thread `t`, which makes the call `next` if it is in none. -/
def step [DecidableEq T] [DecidableEq H] [DecidableEq F] (env : PrintEnv H F)
    (s : PrintState T H F) (t : T) (next : PrintCall H) : Option (PrintState T H F) :=
  match s.pc t with
  | .idle => some (s.goto t (.location next))
  | .location c =>
      if s.owner.isNone then some { s.goto t (.locked c) with owner := some t } else none
  | .locked c => some { s.goto t (.entered c) with location := c.loc }
  | .entered c =>
      if c.level = I2LOG_NONE then some (s.goto t .idle)
      else
        some { s.goto t (.printing c (c.pieces env s.location)) with
          made := s.made ++ [(c, s.location)]
          codes := c.eh.elim s.codes fun h => Function.update s.codes h c.kept }
  | .printing c (piece :: left) => some ((s.goto t (.printing c left)).print piece)
  | .printing _ [] => some { s.goto t .idle with owner := none }

end PrintState

def PrintStart (s : PrintState T H F) : Prop :=
  s.owner = none ∧ (∀ t, s.pc t = .idle) ∧ s.made = []

def PrintRun [DecidableEq T] [DecidableEq H] [DecidableEq F] (env : PrintEnv H F)
    (run : ℕ → PrintState T H F) : Prop :=
  Runs.IsRun PrintStart (fun s s' => ∃ t next, s.step env t next = some s') run

/-! ### The model of the mutex -/

def PrintPc.coarse (env : PrintEnv H F) : PrintPc H F → LogPc
  | .idle => .idle
  | .location c => .location (c.toLogCall env)
  | .locked c => .locked (c.toLogCall env)
  | .entered c => .entered (c.toLogCall env)
  | .printing c _ => .logged (c.toLogCall env)

def PrintState.coarse (env : PrintEnv H F) (s : PrintState T H F) : LogState T where
  owner := s.owner
  pc t := (s.pc t).coarse env
  location := s.location
  logged := s.made.map fun p => p.1.logged env p.2

variable {env : PrintEnv H F} {s s' : PrintState T H F} {t u : T} {c next : PrintCall H}
  {p : PrintPc H F} {f : F} {left : List (F × List UInt8)} {piece : F × List UInt8}

section Goto

variable [DecidableEq T]

@[simp] theorem PrintState.goto_pc_self : (s.goto t p).pc t = p := by
  show Function.update s.pc t p t = p
  exact Function.update_self ..

@[simp] theorem PrintState.goto_pc_of_ne (h : u ≠ t) : (s.goto t p).pc u = s.pc u := by
  show Function.update s.pc t p u = s.pc u
  exact Function.update_of_ne h ..

theorem PrintState.coarse_eq (hpc : s'.pc = Function.update s.pc t p) :
    s'.coarse env = ⟨s'.owner, Function.update (s.coarse env).pc t (p.coarse env), s'.location,
      s'.made.map fun p => p.1.logged env p.2⟩ := by
  rw [coarse, hpc]
  congr 1
  funext u
  by_cases hu : u = t
  · rw [hu, Function.update_self, Function.update_self]
  · rw [Function.update_of_ne hu, Function.update_of_ne hu]
    rfl

end Goto

variable [DecidableEq T] [DecidableEq H] [DecidableEq F]

inductive PrintStep (env : PrintEnv H F) (s : PrintState T H F) (t : T) : PrintState T H F → Prop
  | call (next : PrintCall H) (hpc : s.pc t = .idle) :
      PrintStep env s t (s.goto t (.location next))
  | lock (c : PrintCall H) (hpc : s.pc t = .location c) (hfree : s.owner = none) :
      PrintStep env s t { s.goto t (.locked c) with owner := some t }
  | store (c : PrintCall H) (hpc : s.pc t = .locked c) :
      PrintStep env s t { s.goto t (.entered c) with location := c.loc }
  | quit (c : PrintCall H) (hpc : s.pc t = .entered c) (hlevel : c.level = I2LOG_NONE) :
      PrintStep env s t (s.goto t .idle)
  | log (c : PrintCall H) (hpc : s.pc t = .entered c) (hlevel : c.level ≠ I2LOG_NONE) :
      PrintStep env s t { s.goto t (.printing c (c.pieces env s.location)) with
        made := s.made ++ [(c, s.location)]
        codes := c.eh.elim s.codes fun h => Function.update s.codes h c.kept }
  | print (c : PrintCall H) (piece : F × List UInt8) (left : List (F × List UInt8))
      (hpc : s.pc t = .printing c (piece :: left)) :
      PrintStep env s t ((s.goto t (.printing c left)).print piece)
  | unlock (c : PrintCall H) (hpc : s.pc t = .printing c []) :
      PrintStep env s t { s.goto t .idle with owner := none }

theorem PrintStep.of_step (h : s.step env t next = some s') : PrintStep env s t s' := by
  rw [PrintState.step] at h
  cases hpc : s.pc t with
  | idle =>
      rw [hpc] at h
      obtain rfl := Option.some.inj h
      exact .call next hpc
  | location c =>
      rw [hpc] at h
      simp only [Option.isNone_iff_eq_none] at h
      split at h
      · obtain rfl := Option.some.inj h
        exact .lock c hpc ‹_›
      · cases h
  | locked c =>
      rw [hpc] at h
      obtain rfl := Option.some.inj h
      exact .store c hpc
  | entered c =>
      rw [hpc] at h
      simp only at h
      split at h
      · obtain rfl := Option.some.inj h
        exact .quit c hpc ‹_›
      · obtain rfl := Option.some.inj h
        exact .log c hpc ‹_›
  | printing c left =>
      rw [hpc] at h
      cases left with
      | nil =>
          obtain rfl := Option.some.inj h
          exact .unlock c hpc
      | cons piece left =>
          obtain rfl := Option.some.inj h
          exact .print c piece left hpc

omit [DecidableEq H] [DecidableEq F] in
theorem LogStep.exists_step {s s' : LogState T} (h : LogStep (fun _ => True) s t s') :
    ∃ t next, True ∧ s.step t next = some s' := by
  have any : LogCall := .I2ErrLog ⟨⟨[], [], 0⟩, none, 0, fun _ => []⟩
  cases h with
  | call next hok hpc => exact ⟨t, next, trivial, by rw [LogState.step, hpc]⟩
  | lock c hpc hfree => exact ⟨t, any, trivial, by rw [LogState.step, hpc, hfree]; rfl⟩
  | store c hpc => exact ⟨t, any, trivial, by rw [LogState.step, hpc]⟩
  | quit c hpc hlevel => exact ⟨t, any, trivial, by rw [LogState.step, hpc]; exact if_pos hlevel⟩
  | log c hpc hlevel => exact ⟨t, any, trivial, by rw [LogState.step, hpc]; exact if_neg hlevel⟩
  | unlock c hpc => exact ⟨t, any, trivial, by rw [LogState.step, hpc]⟩

/-- A step is one of the model of the mutex, or it prints a piece of a message that is
logged there already. -/
theorem PrintStep.coarse (h : PrintStep env s t s') :
    s'.coarse env = s.coarse env ∨
      LogStep (fun _ => True) (s.coarse env) t (s'.coarse env) := by
  have hpc' : (s.coarse env).pc t = (s.pc t).coarse env := rfl
  cases h with
  | call next hpc =>
      right
      rw [(PrintState.coarse_eq rfl : (s.goto t (.location next)).coarse env = _)]
      exact .call _ trivial (by rw [hpc', hpc]; rfl)
  | lock c hpc hfree =>
      right
      rw [(PrintState.coarse_eq rfl :
        PrintState.coarse env { s.goto t (.locked c) with owner := some t } = _)]
      exact .lock (c.toLogCall env) (by rw [hpc', hpc]; rfl) hfree
  | store c hpc =>
      right
      rw [(PrintState.coarse_eq rfl :
        PrintState.coarse env { s.goto t (.entered c) with location := c.loc } = _)]
      exact .store (c.toLogCall env) (by rw [hpc', hpc]; rfl)
  | quit c hpc hlevel =>
      right
      rw [(PrintState.coarse_eq rfl : (s.goto t .idle).coarse env = _)]
      exact .quit (c.toLogCall env) (by rw [hpc', hpc]; rfl) hlevel
  | log c hpc hlevel =>
      right
      rw [(PrintState.coarse_eq rfl : PrintState.coarse env
        { s.goto t (.printing c (c.pieces env s.location)) with
          made := s.made ++ [(c, s.location)]
          codes := c.eh.elim s.codes fun h => Function.update s.codes h c.kept } = _),
        List.map_append]
      exact .log (c.toLogCall env) (by rw [hpc', hpc]; rfl) hlevel
  | print c piece left hpc =>
      left
      rw [PrintState.coarse_eq (s := s) (t := t) (p := .printing c left) rfl]
      have hsame : Function.update (s.coarse env).pc t (PrintPc.coarse env (.printing c left)) =
          (s.coarse env).pc := by
        rw [Function.update_eq_self_iff, hpc', hpc]
        rfl
      rw [hsame]
      rfl
  | unlock c hpc =>
      right
      rw [(PrintState.coarse_eq rfl :
        PrintState.coarse env { s.goto t .idle with owner := none } = _)]
      exact .unlock (c.toLogCall env) (by rw [hpc', hpc]; rfl)

/-! ### What is on the streams -/

def textOn (f : F) (pieces : List (F × List UInt8)) : List UInt8 :=
  (pieces.filter fun piece => piece.1 = f).flatMap Prod.snd

omit [DecidableEq T] [DecidableEq H] in
theorem textOn_append (f : F) (xs ys : List (F × List UInt8)) :
    textOn f (xs ++ ys) = textOn f xs ++ textOn f ys := by
  rw [textOn, List.filter_append, List.flatMap_append]
  rfl

omit [DecidableEq T] [DecidableEq H] in
theorem PrintState.print_out (s : PrintState T H F) (piece : F × List UInt8) (f : F) :
    (s.print piece).out f = s.out f ++ textOn f [piece] := by
  by_cases hf : f = piece.1
  · subst hf
    simp [print, textOn]
  · have hne : ¬piece.1 = f := fun h => hf h.symm
    simp [print, textOn, Function.update_of_ne hf, hne]

def linesOn (env : PrintEnv H F) (f : F) (made : List (PrintCall H × ErrLocation)) : List UInt8 :=
  made.flatMap fun p => textOn f (p.1.pieces env p.2)

def lastCode (codes : H → ℤ) (made : List (PrintCall H × ErrLocation)) (h : H) : ℤ :=
  made.foldl (fun code p => if p.1.eh = some h then p.1.kept else code) (codes h)

def Quiet (s : PrintState T H F) : Prop := ∀ t c left, s.pc t ≠ .printing c left

/-- Each stream holds the messages one after the other, and of the last one the pieces that
are printed already. -/
structure Printed (env : PrintEnv H F) (out : F → List UInt8) (codes : H → ℤ)
    (s : PrintState T H F) : Prop where
  own : ∀ p ∈ s.made, p.2 = p.1.loc
  whole : Quiet s → ∀ f, s.out f = out f ++ linesOn env f s.made
  part : ∀ t c left, s.pc t = .printing c left → ∃ before loc done,
    s.made = before ++ [(c, loc)] ∧ c.pieces env loc = done ++ left ∧
      ∀ f, s.out f = out f ++ linesOn env f before ++ textOn f done
  codes : ∀ h, s.codes h = lastCode codes s.made h

variable {out : F → List UInt8} {codes : H → ℤ}

omit [DecidableEq T] in
theorem PrintStart.printed (h : PrintStart s) : Printed env s.out s.codes s := by
  refine ⟨?_, fun _ f => ?_, fun t c left hpc => ?_, fun k => ?_⟩
  · rw [h.2.2]
    exact fun p hp => absurd hp List.not_mem_nil
  · rw [h.2.2]
    exact (List.append_nil _).symm
  · rw [h.2.1 t] at hpc
    cases hpc
  · rw [h.2.2]
    rfl

omit [DecidableEq T] [DecidableEq H] in
theorem linesOn_append (env : PrintEnv H F) (f : F) (made : List (PrintCall H × ErrLocation))
    (c : PrintCall H) (loc : ErrLocation) :
    linesOn env f (made ++ [(c, loc)]) = linesOn env f made ++ textOn f (c.pieces env loc) := by
  rw [linesOn, List.flatMap_append, List.flatMap_singleton]
  rfl

omit [DecidableEq T] [DecidableEq F] in
theorem lastCode_append (codes : H → ℤ) (made : List (PrintCall H × ErrLocation))
    (c : PrintCall H) (loc : ErrLocation) (h : H) :
    lastCode codes (made ++ [(c, loc)]) h =
      if c.eh = some h then c.kept else lastCode codes made h := by
  rw [lastCode, List.foldl_append]
  rfl

omit [DecidableEq T] in
theorem Printed.quiet_step (h : Printed env out codes s) (hmade : s'.made = s.made)
    (hout : s'.out = s.out) (hcodes : s'.codes = s.codes)
    (hpc : ∀ u c left, s'.pc u = .printing c left ↔ s.pc u = .printing c left) :
    Printed env out codes s' := by
  refine ⟨by rw [hmade]; exact h.own, fun hquiet => ?_, fun u c left hu => ?_, fun k => ?_⟩
  · rw [hmade, hout]
    exact h.whole fun u c left hu => hquiet u c left ((hpc u c left).mpr hu)
  · rw [hmade, hout]
    exact h.part u c left ((hpc u c left).mp hu)
  · rw [hmade, hcodes]
    exact h.codes k

omit [DecidableEq H] [DecidableEq F] in
/-- A thread that goes from one place outside of the printing to another. -/
theorem PrintState.printing_iff (h : s'.pc = Function.update s.pc t p)
    (hfrom : ∀ c left, s.pc t ≠ .printing c left) (hto : ∀ c left, p ≠ .printing c left) (u : T)
    (c : PrintCall H) (left : List (F × List UInt8)) :
    s'.pc u = .printing c left ↔ s.pc u = .printing c left := by
  rw [h]
  by_cases hu : u = t
  · subst hu
    rw [Function.update_self]
    exact ⟨fun heq => absurd heq (hto c left), fun heq => absurd heq (hfrom c left)⟩
  · rw [Function.update_of_ne hu]

theorem Printed.step (h : Printed env out codes s) (hexclusive : Exclusive (s.coarse env))
    (hown : OwnLocation (s.coarse env)) (hstep : PrintStep env s t s') :
    Printed env out codes s' := by
  have hholds : ∀ u, ((s.coarse env).pc u).holds = ((s.pc u).coarse env).holds := fun _ => rfl
  -- a thread that is inside is the only one
  have hother : ∀ u, u ≠ t → ((s.pc t).coarse env).holds = true →
      ((s.pc u).coarse env).holds = true → False := fun u hu ht hu' =>
    hu (hexclusive.eq hu' ht)
  cases hstep with
  | call next hpc =>
      exact h.quiet_step rfl rfl rfl
        (PrintState.printing_iff rfl (fun c left => by simp [hpc]) (by simp))
  | lock c hpc hfree =>
      exact h.quiet_step rfl rfl rfl
        (PrintState.printing_iff rfl (fun c left => by simp [hpc]) (by simp))
  | store c hpc =>
      exact h.quiet_step rfl rfl rfl
        (PrintState.printing_iff rfl (fun c left => by simp [hpc]) (by simp))
  | quit c hpc hlevel =>
      exact h.quiet_step rfl rfl rfl
        (PrintState.printing_iff rfl (fun c left => by simp [hpc]) (by simp))
  | log c hpc hlevel =>
      have hloc : s.location = c.loc := hown t (c.toLogCall env) (by
        show (s.pc t).coarse env = _
        rw [hpc]
        rfl)
      have hquiet : Quiet s := by
        intro u c' left hu
        by_cases hut : u = t
        · subst hut
          rw [hpc] at hu
          cases hu
        · exact hother u hut (by rw [hpc]; rfl) (by rw [hu]; rfl)
      refine ⟨?_, fun hq => ?_, fun u c' left hu => ?_, fun k => ?_⟩
      · intro p hp
        rcases List.mem_append.mp hp with hp | hp
        · exact h.own p hp
        · obtain rfl := List.mem_singleton.mp hp
          exact hloc
      · exact absurd PrintState.goto_pc_self (hq t c _)
      · by_cases hut : u = t
        · subst hut
          have hsame := hu.symm.trans PrintState.goto_pc_self
          obtain ⟨rfl, rfl⟩ := PrintPc.printing.inj hsame
          exact ⟨s.made, s.location, [], rfl, rfl, fun f => by
            rw [textOn, List.filter_nil, List.flatMap_nil, List.append_nil]
            exact h.whole hquiet f⟩
        · exact absurd ((PrintState.goto_pc_of_ne hut).symm.trans hu) (hquiet u c' left)
      · rw [lastCode_append]
        show (c.eh.elim s.codes fun h => Function.update s.codes h c.kept) k = _
        cases heh : c.eh with
        | none =>
            rw [if_neg (by simp)]
            exact h.codes k
        | some h' =>
            by_cases hk : h' = k
            · subst hk
              rw [if_pos rfl]
              exact Function.update_self ..
            · rw [if_neg (fun heq => hk (Option.some.inj heq)), ← h.codes k]
              exact Function.update_of_ne (Ne.symm hk) ..
  | print c piece left hpc =>
      have hin : ((s.pc t).coarse env).holds = true := by rw [hpc]; rfl
      obtain ⟨before, loc, done, hmade, hpieces, hout⟩ := h.part t c _ hpc
      refine ⟨h.own, fun hq => ?_, fun u c' left' hu => ?_, h.codes⟩
      · exact absurd PrintState.goto_pc_self (hq t c left)
      · by_cases hut : u = t
        · subst hut
          have hsame := hu.symm.trans PrintState.goto_pc_self
          obtain ⟨rfl, rfl⟩ := PrintPc.printing.inj hsame
          refine ⟨before, loc, done ++ [piece], hmade, by rw [hpieces, List.append_assoc]; rfl,
            fun f => ?_⟩
          rw [PrintState.print_out, textOn_append, ← List.append_assoc]
          exact congrArg (· ++ textOn f [piece]) (hout f)
        · have hu' : s.pc u = .printing c' left' :=
            (PrintState.goto_pc_of_ne hut).symm.trans hu
          exact absurd (by rw [hu']; rfl) (fun hin' => hother u hut hin hin')
  | unlock c hpc =>
      have hin : ((s.pc t).coarse env).holds = true := by rw [hpc]; rfl
      obtain ⟨before, loc, done, hmade, hpieces, hout⟩ := h.part t c _ hpc
      rw [List.append_nil] at hpieces
      refine ⟨h.own, fun _ f => ?_, fun u c' left' hu => ?_, h.codes⟩
      · show s.out f = out f ++ linesOn env f s.made
        rw [hout f, List.append_assoc, ← hpieces, ← linesOn_append, ← hmade]
      · by_cases hut : u = t
        · subst hut
          have hsame := hu.symm.trans PrintState.goto_pc_self
          cases hsame
        · have hu' : s.pc u = .printing c' left' :=
            (PrintState.goto_pc_of_ne hut).symm.trans hu
          exact absurd (by rw [hu']; rfl) (fun hin' => hother u hut hin hin')

/-! ### Runs -/

section Run

variable {run : ℕ → PrintState T H F}

theorem PrintRun.invariant (h : PrintRun env run) (n : ℕ) :
    Exclusive ((run n).coarse env) ∧ OwnLocation ((run n).coarse env) ∧
      Printed env (run 0).out (run 0).codes (run n) := by
  refine Runs.IsRun.always_from h (I := fun s => Exclusive (s.coarse env) ∧
    OwnLocation (s.coarse env) ∧ Printed env (run 0).out (run 0).codes s) ?_ ?_ (Nat.zero_le n)
  · have hidle : ∀ t, (((run 0).coarse env).pc t) = .idle := fun t => by
      show ((run 0).pc t).coarse env = _
      rw [h.start.2.1 t]
      rfl
    refine ⟨fun t ht => ?_, fun t c hc => ?_, h.start.printed⟩
    · rw [hidle t] at ht
      cases ht
    · rw [hidle t] at hc
      cases hc
  · rintro s s' ⟨hexclusive, hown, hprinted⟩ ⟨t, next, hstep⟩
    have hstep := PrintStep.of_step hstep
    have hprinted' := hprinted.step hexclusive hown hstep
    rcases hstep.coarse with hsame | hcoarse
    · rw [hsame]
      exact ⟨hexclusive, hown, hprinted'⟩
    · exact ⟨hexclusive.step hcoarse, hown.step hexclusive hcoarse, hprinted'⟩

/-- With messages in one piece, it is a run of the model of the mutex. -/
theorem PrintRun.coarse (h : PrintRun env run) :
    LogRun (fun _ => True) fun n => (run n).coarse env := by
  refine ⟨⟨h.start.1, fun t => ?_⟩, fun n => ?_⟩
  · show ((run 0).pc t).coarse env = _
    rw [h.start.2.1 t]
    rfl
  · rcases h.step n with hsame | ⟨t, next, hstep⟩
    · exact .inl (congrArg (PrintState.coarse env) hsame)
    · exact (PrintStep.of_step hstep).coarse.imp id LogStep.exists_step

/-- Whatever the threads do, the streams hold whole messages, one after the other, each with
its own location, and behind them the first pieces of the message of the one thread that is
printing. The code in a handle is that of its last message. -/
theorem log_streams_whole (h : PrintRun env run) :
    LogRun (fun _ => True) (fun n => (run n).coarse env) ∧
      ∀ n, ∃ calls : List (PrintCall H),
        (run n).made = calls.map (fun c => (c, c.loc)) ∧
        (Quiet (run n) → ∀ f, (run n).out f =
          (run 0).out f ++ calls.flatMap fun c => textOn f (c.pieces env c.loc)) ∧
        (∀ t c left, (run n).pc t = .printing c left → ∃ before done,
          calls = before ++ [c] ∧ c.pieces env c.loc = done ++ left ∧
            ∀ f, (run n).out f = (run 0).out f ++
              (before.flatMap fun c => textOn f (c.pieces env c.loc)) ++ textOn f done) ∧
        ∀ k, (run n).codes k = calls.foldl
          (fun code c => if c.eh = some k then c.kept else code) ((run 0).codes k) := by
  refine ⟨h.coarse, fun n => ?_⟩
  obtain ⟨-, -, hprinted⟩ := h.invariant n
  have hmade : (run n).made = ((run n).made.map Prod.fst).map fun c => (c, c.loc) := by
    rw [List.map_map]
    conv_lhs => rw [← List.map_id (run n).made]
    exact List.map_congr_left fun p hp => Prod.ext rfl (hprinted.own p hp)
  have hlines : ∀ f (calls : List (PrintCall H)), linesOn env f (calls.map fun c => (c, c.loc)) =
      calls.flatMap fun c => textOn f (c.pieces env c.loc) := fun f calls => by
    rw [linesOn, List.flatMap_map]
  refine ⟨_, hmade, fun hquiet f => ?_, fun t c left hpc => ?_, fun k => ?_⟩
  · rw [hprinted.whole hquiet f, ← hlines, ← hmade]
  · obtain ⟨before, loc, done, hlast, hpieces, hout⟩ := hprinted.part t c left hpc
    have hloc : loc = c.loc := hprinted.own (c, loc) (by rw [hlast]; simp)
    have hbefore : before = (before.map Prod.fst).map fun c => (c, c.loc) := by
      rw [List.map_map]
      conv_lhs => rw [← List.map_id before]
      exact List.map_congr_left fun p hp =>
        Prod.ext rfl (hprinted.own p (by rw [hlast]; exact List.mem_append_left _ hp))
    refine ⟨before.map Prod.fst, done, by rw [hlast]; simp, hloc ▸ hpieces, fun f => ?_⟩
    rw [hout f, ← hlines, ← hbefore]
  · rw [hprinted.codes k, lastCode, List.foldl_map]

end Run

/-- A handle that prints its name and the message to the stream of a null handle. -/
def nameEnv : PrintEnv Unit Unit :=
  ⟨fun _ => ⟨ascii "prog", ⟨some (), I2NAME ||| I2MSG⟩⟩, ()⟩

def namedCall : PrintCall Unit :=
  ⟨some (), ⟨ascii "a.c", [], 1⟩, 2, -1, 0, fun _ => ascii "one", []⟩

def nullCall : PrintCall Unit := ⟨none, ⟨ascii "b.c", [], 2⟩, 0, 3, 7, fun _ => ascii "two", []⟩

/-- The second thread waits while the first one prints. -/
def namedNull : ℕ → PrintState Bool Unit Unit :=
  Runs.follow (fun s (entry : Bool × PrintCall Unit) => s.step nameEnv entry.1 entry.2)
    ⟨none, fun _ => .idle, ⟨[], [], 0⟩, [], fun _ => 0, fun _ => []⟩
    [(false, namedCall), (true, nullCall), (false, namedCall), (true, nullCall),
      (false, namedCall), (false, namedCall), (false, namedCall), (true, nullCall),
      (false, namedCall), (false, namedCall), (false, namedCall), (true, nullCall),
      (true, nullCall), (true, nullCall), (true, nullCall), (true, nullCall), (true, nullCall)]

theorem log_streams_whole_two :
    (namedNull 17).out () = ascii "prog: one\ntwo\n" ∧ (namedNull 17).codes () = 2 := by
  have hrun : PrintRun nameEnv namedNull :=
    Runs.follow_isRun ⟨rfl, fun _ => rfl, rfl⟩ fun a _ _ _ h => ⟨a.1, a.2, h⟩
  obtain ⟨-, hall⟩ := log_streams_whole hrun
  obtain ⟨calls, hmade, hwhole, -, hcodes⟩ := hall 17
  have hcalls : calls = [namedCall, nullCall] := by
    have hfst := congrArg (List.map Prod.fst) hmade
    rw [List.map_map] at hfst
    exact (List.map_id calls).symm.trans hfst.symm
  subst hcalls
  refine ⟨?_, hcodes ()⟩
  rw [hwhole (fun t c left hpc => by cases t <;> cases hpc) ()]
  decide

end I2util
