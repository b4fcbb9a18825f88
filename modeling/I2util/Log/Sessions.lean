import I2util.Library.History
import I2util.Log.Syslog
import Mathlib.Data.List.Induction
import Mathlib.Logic.Function.Basic

/-!
Handles that log with `I2ErrLogSyslog`, any number of them in one process.

The system has one identity for the whole process, and the last `openlog` decides it. A
handle calls it with its first message, and again with the first one after it has been reset.
-/

namespace I2util

/-- A message comes to `I2ErrLogSyslog`, or a handle is reset with `I2ErrLogSyslogReset`. -/
inductive SyslogEvent (H : Type*)
  | log (h : H) (ev : I2ErrLogEvent) (ftime : List UInt8)
  | reset (h : H)

/-- What `syslog` is handed, and who has called the last `openlog` since `closelog`. -/
structure SyslogSent (H : Type*) where
  handle : H
  opener : Option H
  prio : ℤ
  text : Option (List UInt8)
  deriving DecidableEq

/-- `data` says of each handle that its `*data` is not null. -/
structure SyslogSession (H : Type*) where
  data : H → Bool
  opener : Option H
  sent : List (SyslogSent H)

namespace SyslogSession

variable {H : Type*} [DecidableEq H]

def start : SyslogSession H := ⟨fun _ => false, none, []⟩

def call (h : H) (s : SyslogSession H) : SyslogCall → SyslogSession H
  | .openlog _ _ _ => { s with opener := some h }
  | .syslog prio text => { s with sent := s.sent ++ [⟨h, s.opener, prio, text⟩] }
  | .stderr _ => s

def setData (s : SyslogSession H) (h : H) (d : Bool) : SyslogSession H :=
  { s with data := Function.update s.data h d }

def step (havePerror : Bool) (sa : H → I2ErrLogSyslogAttr) (s : SyslogSession H) :
    SyslogEvent H → SyslogSession H
  | .log h ev ftime =>
      let r := i2ErrLogSyslog havePerror ev (sa h) (s.data h) ftime
      r.calls.foldl (call h) (s.setData h r.data)
  | .reset h => { s.setData h false with opener := none }

def run (havePerror : Bool) (sa : H → I2ErrLogSyslogAttr) (es : List (SyslogEvent H)) :
    SyslogSession H :=
  es.foldl (step havePerror sa) start

/-! ### What a history says -/

def IsLog (h : H) (e : SyslogEvent H) : Prop := ∃ ev ftime, e = .log h ev ftime

def Logged (h : H) : List (SyslogEvent H) → Prop :=
  History.Since (fun _ e => IsLog h e) fun _ e => e ≠ .reset h

/-- The first message of a handle that has an identity. -/
def Opens (sa : H → I2ErrLogSyslogAttr) (h : H) (past : List (SyslogEvent H))
    (e : SyslogEvent H) : Prop :=
  IsLog h e ∧ (sa h).ident.isSome = true ∧ ¬Logged h past

def Leaves (sa : H → I2ErrLogSyslogAttr) (past : List (SyslogEvent H)) (e : SyslogEvent H) :
    Prop :=
  (∀ h, e ≠ .reset h) ∧ ∀ h, ¬Opens sa h past e

/-- The handle has opened the log, and nothing has happened to that since. -/
def LastOpener (sa : H → I2ErrLogSyslogAttr) (h : H) : List (SyslogEvent H) → Prop :=
  History.Since (Opens sa h) (Leaves sa)

variable {havePerror : Bool} {sa : H → I2ErrLogSyslogAttr} {s : SyslogSession H} {h o : H}
  {es : List (SyslogEvent H)} {e : SyslogEvent H} {ev : I2ErrLogEvent} {ftime : List UInt8}

theorem run_append_singleton :
    run havePerror sa (es ++ [e]) = step havePerror sa (run havePerror sa es) e := by
  rw [run, List.foldl_append]
  rfl

omit [DecidableEq H] in
theorem logged_append_log : Logged o (es ++ [.log h ev ftime]) ↔ h = o ∨ Logged o es := by
  rw [Logged, History.since_append_singleton]
  constructor
  · rintro (⟨ev', ftime', heq⟩ | ⟨hlogged, -⟩)
    · cases heq
      exact .inl rfl
    · exact .inr hlogged
  · rintro (rfl | hlogged)
    · exact .inl ⟨ev, ftime, rfl⟩
    · exact .inr ⟨hlogged, fun heq => by cases heq⟩

omit [DecidableEq H] in
theorem logged_append_reset : Logged o (es ++ [.reset h]) ↔ h ≠ o ∧ Logged o es := by
  rw [Logged, History.since_append_singleton]
  constructor
  · rintro (⟨ev, ftime, heq⟩ | ⟨hlogged, hne⟩)
    · cases heq
    · exact ⟨fun heq => hne (by rw [heq]), hlogged⟩
  · rintro ⟨hne, hlogged⟩
    exact .inr ⟨hlogged, fun heq => hne (by cases heq; rfl)⟩

/-! ### One event -/

omit [DecidableEq H] in
/-- The calls behind `openlog` keep the opener, and send what they send under it. -/
theorem foldl_call {cs : List SyslogCall} (hcs : ∀ ident logopt facility,
    SyslogCall.openlog ident logopt facility ∉ cs) (s : SyslogSession H) :
    (cs.foldl (call h) s).data = s.data ∧ (cs.foldl (call h) s).opener = s.opener ∧
      ∃ ms, (cs.foldl (call h) s).sent = s.sent ++ ms ∧
        ∀ m, m ∈ ms ↔ m.handle = h ∧ m.opener = s.opener ∧ .syslog m.prio m.text ∈ cs := by
  induction cs generalizing s with
  | nil => exact ⟨rfl, rfl, [], (List.append_nil _).symm, fun m => by simp⟩
  | cons c cs ih =>
      have hrest := ih (fun ident logopt facility hmem =>
        hcs ident logopt facility (List.mem_cons_of_mem c hmem)) (call h s c)
      obtain ⟨hdata, hopener, ms, hsent, hms⟩ := hrest
      rw [List.foldl_cons, hdata, hopener, hsent]
      cases c with
      | openlog ident logopt facility =>
          exact absurd List.mem_cons_self (hcs ident logopt facility)
      | syslog prio text =>
          refine ⟨rfl, rfl, ⟨h, s.opener, prio, text⟩ :: ms, by simp [call], fun m => ?_⟩
          obtain ⟨mh, mo, mprio, mtext⟩ := m
          rw [List.mem_cons, hms, List.mem_cons, SyslogSent.mk.injEq, SyslogCall.syslog.injEq]
          simp only [call]
          tauto
      | stderr text =>
          refine ⟨rfl, rfl, ms, rfl, fun m => ?_⟩
          rw [hms, List.mem_cons]
          simp only [call, reduceCtorEq, false_or]

omit [DecidableEq H] in
/-- `openlog` is the first call, if it is one at all. -/
theorem i2ErrLogSyslog_calls (havePerror : Bool) (ev : I2ErrLogEvent) (sa : I2ErrLogSyslogAttr)
    (data : Bool) (ftime : List UInt8) :
    ∃ cs, (i2ErrLogSyslog havePerror ev sa data ftime).calls =
        (if data then [] else sa.ident.toList.map fun ident =>
          SyslogCall.openlog ident sa.logopt sa.facility) ++ cs ∧
      ∀ ident logopt facility, SyslogCall.openlog ident logopt facility ∉ cs := by
  have hsend : ∀ st ident logopt facility, SyslogCall.openlog ident logopt facility ∉
      i2ErrLogSyslog.send havePerror ev sa st := by
    intro st ident logopt facility hmem
    simp only [i2ErrLogSyslog.send, List.mem_append, List.mem_ite_nil_right,
      List.mem_singleton, reduceCtorEq, and_false, or_self] at hmem
  simp only [i2ErrLogSyslog]
  split
  · split
    · exact ⟨[], (List.append_nil _).symm, fun _ _ _ hmem => by cases hmem⟩
    · exact ⟨_, rfl, hsend _⟩
  · split
    · exact ⟨[], (List.append_nil _).symm, fun _ _ _ hmem => by cases hmem⟩
    · exact ⟨_, rfl, hsend _⟩

omit [DecidableEq H] in
theorem foldl_openlog (sa : I2ErrLogSyslogAttr) (data : Bool) (s : SyslogSession H) :
    (if data then [] else sa.ident.toList.map fun ident =>
      SyslogCall.openlog ident sa.logopt sa.facility).foldl (call h) s =
      { s with
        opener := if data = false ∧ sa.ident.isSome = true then some h else s.opener } := by
  cases data with
  | true => rfl
  | false =>
      cases hident : sa.ident with
      | none => rfl
      | some ident => rfl

/-- What a message does: it opens the log if `*data` is null and there is an identity, and is
sent then. -/
theorem step_log (havePerror : Bool) (sa : H → I2ErrLogSyslogAttr) (s : SyslogSession H) (h : H)
    (ev : I2ErrLogEvent) (ftime : List UInt8) :
    let s' := step havePerror sa s (.log h ev ftime)
    s'.data = Function.update s.data h (s.data h || (sa h).ident.isSome) ∧
      s'.opener = (if s.data h = false ∧ (sa h).ident.isSome = true then some h else s.opener) ∧
      ∃ ms, s'.sent = s.sent ++ ms ∧ ∀ m, m ∈ ms ↔ m.handle = h ∧ m.opener = s'.opener ∧
        .syslog m.prio m.text ∈ (i2ErrLogSyslog havePerror ev (sa h) (s.data h) ftime).calls := by
  obtain ⟨cs, hcalls, hcs⟩ := i2ErrLogSyslog_calls havePerror ev (sa h) (s.data h) ftime
  simp only [step]
  rw [hcalls, List.foldl_append, foldl_openlog]
  obtain ⟨hdata, hopener, ms, hsent, hms⟩ := foldl_call (h := h) hcs
    { s.setData h (i2ErrLogSyslog havePerror ev (sa h) (s.data h) ftime).data with
      opener := if s.data h = false ∧ (sa h).ident.isSome = true then some h else s.opener }
  refine ⟨hdata, hopener, ms, hsent, fun m => ?_⟩
  have hfirst : SyslogCall.syslog m.prio m.text ∉ (if s.data h = true then [] else
      (sa h).ident.toList.map fun ident =>
        SyslogCall.openlog ident (sa h).logopt (sa h).facility) := by
    split <;> simp
  refine (hms m).trans (and_congr_right fun _ => and_congr ?_ ?_)
  · exact Iff.of_eq (congrArg (m.opener = ·) hopener.symm)
  · rw [List.mem_append, or_iff_right hfirst]

/-! ### Every history -/

/-- A handle's `*data` is set by a message and cleared by a reset. -/
theorem data_iff : (run havePerror sa es).data o = true ↔
    (sa o).ident.isSome = true ∧ Logged o es := by
  induction es using List.reverseRecOn with
  | nil =>
      have hnot : ¬Logged o ([] : List (SyslogEvent H)) := History.not_since_nil
      simp [run, start, hnot]
  | append_singleton es e ih =>
      rw [run_append_singleton]
      cases e with
      | log h ev ftime =>
          obtain ⟨hdata, -⟩ := step_log havePerror sa (run havePerror sa es) h ev ftime
          rw [hdata, logged_append_log]
          by_cases hoh : o = h
          · subst hoh
            simp only [Function.update_self, Bool.or_eq_true, ih, true_or, and_true]
            exact or_iff_right_of_imp And.left
          · rw [Function.update_of_ne hoh, ih]
            simp [Ne.symm hoh]
      | reset h =>
          rw [logged_append_reset]
          by_cases hoh : o = h
          · subst hoh
            simp [step, setData]
          · simp [step, setData, hoh, Ne.symm hoh, ih]

theorem opens_log (havePerror : Bool) :
    Opens sa o es (.log h ev ftime) ↔ h = o ∧ (run havePerror sa es).data h = false ∧
      (sa h).ident.isSome = true := by
  rw [Bool.eq_false_iff, ne_eq, data_iff]
  constructor
  · rintro ⟨⟨ev', ftime', heq⟩, hident, hfirst⟩
    cases heq
    exact ⟨rfl, fun hdata => hfirst hdata.2, hident⟩
  · rintro ⟨rfl, hdata, hident⟩
    exact ⟨⟨ev, ftime, rfl⟩, hident, fun hlogged => hdata ⟨hident, hlogged⟩⟩

/-- The opener is the handle that opened the log last, as long as no handle has been reset
since. -/
theorem opener_iff : (run havePerror sa es).opener = some o ↔ LastOpener sa o es := by
  induction es using List.reverseRecOn with
  | nil =>
      have hnot : ¬LastOpener sa o [] := History.not_since_nil
      simp [run, start, hnot]
  | append_singleton es e ih =>
      rw [run_append_singleton, LastOpener, History.since_append_singleton]
      cases e with
      | log h ev ftime =>
          obtain ⟨-, hopener, -⟩ := step_log havePerror sa (run havePerror sa es) h ev ftime
          rw [hopener]
          split
          · rename_i hopens
            constructor
            · intro heq
              exact .inl ((opens_log havePerror).mpr ⟨Option.some.inj heq, hopens⟩)
            · rintro (ho | ⟨-, -, hno⟩)
              · exact congrArg some ((opens_log havePerror).mp ho).1
              · exact absurd ((opens_log havePerror).mpr ⟨rfl, hopens⟩) (hno h)
          · rename_i hopens
            have hno : ∀ h', ¬Opens sa h' es (.log h ev ftime) := fun h' ho =>
              hopens ((opens_log havePerror).mp ho).2
            rw [ih]
            exact ⟨fun hlast => .inr ⟨hlast, fun h' heq => (by cases heq), hno⟩,
              fun hor => (hor.resolve_left (hno o)).1⟩
      | reset h =>
          constructor
          · intro heq
            cases heq
          · rintro (⟨⟨ev, ftime, heq⟩, -⟩ | ⟨-, hno, -⟩)
            · cases heq
            · exact absurd rfl (hno h)

def Settled (sa : H → I2ErrLogSyslogAttr) (es more : List (SyslogEvent H)) : Prop :=
  ∀ e ∈ more, ∃ h, IsLog h e ∧ ((sa h).ident.isSome = true → Logged h es)

omit [DecidableEq H] in
theorem Settled.logged {more : List (SyslogEvent H)} (hmore : Settled sa es more)
    (hlogged : Logged o es) : Logged o (es ++ more) := by
  induction more using List.reverseRecOn with
  | nil => rwa [List.append_nil]
  | append_singleton more e ih =>
      obtain ⟨h, ⟨ev, ftime, rfl⟩, -⟩ := hmore e (List.mem_append_right _ List.mem_cons_self)
      rw [← List.append_assoc, logged_append_log]
      exact .inr (ih fun e he => hmore e (List.mem_append_left _ he))

/-- The log is not opened again, and all messages are sent under the same opener. -/
theorem Settled.sent {more : List (SyslogEvent H)} (hmore : Settled sa es more) :
    (run havePerror sa (es ++ more)).opener = (run havePerror sa es).opener ∧
      ∃ ms, (run havePerror sa (es ++ more)).sent = (run havePerror sa es).sent ++ ms ∧
        ∀ m ∈ ms, m.opener = (run havePerror sa es).opener := by
  induction more using List.reverseRecOn with
  | nil =>
      rw [List.append_nil]
      exact ⟨rfl, [], (List.append_nil _).symm, fun m hm => by cases hm⟩
  | append_singleton more e ih =>
      have hbefore : Settled sa es more := fun e he => hmore e (List.mem_append_left _ he)
      obtain ⟨hopener, ms, hsent, hms⟩ := ih hbefore
      obtain ⟨h, ⟨ev, ftime, rfl⟩, hsettled⟩ :=
        hmore e (List.mem_append_right _ List.mem_cons_self)
      obtain ⟨-, hopener', ms', hsent', hms'⟩ :=
        step_log havePerror sa (run havePerror sa (es ++ more)) h ev ftime
      have hopened : ¬((run havePerror sa (es ++ more)).data h = false ∧
          (sa h).ident.isSome = true) := fun hno => by
        have hdata : (run havePerror sa (es ++ more)).data h = true :=
          data_iff.mpr ⟨hno.2, hbefore.logged (hsettled hno.2)⟩
        rw [hno.1] at hdata
        cases hdata
      rw [if_neg hopened, hopener] at hopener'
      rw [← List.append_assoc, run_append_singleton]
      refine ⟨hopener', ms ++ ms', by rw [hsent', hsent, List.append_assoc], fun m hm => ?_⟩
      rcases List.mem_append.mp hm with hm | hm
      · exact hms m hm
      · exact ((hms' m).mp hm).2.1.trans hopener'

/-- A message goes out under the handle that opened the log last. When every handle has had
its first message, that is the same one for all, until a handle is reset. -/
theorem syslog_sessions (havePerror : Bool) (sa : H → I2ErrLogSyslogAttr) :
    (∀ past h ev ftime,
      let es := past ++ [.log h ev ftime]
      ∃ ms, (run havePerror sa es).sent = (run havePerror sa past).sent ++ ms ∧
        ∀ m, m ∈ ms ↔ m.handle = h ∧ (∀ o, m.opener = some o ↔ LastOpener sa o es) ∧
          .syslog m.prio m.text ∈ (i2ErrLogSyslog havePerror ev (sa h)
            ((run havePerror sa past).data h) ftime).calls) ∧
      ∀ es more, Settled sa es more →
        ∃ ms, (run havePerror sa (es ++ more)).sent = (run havePerror sa es).sent ++ ms ∧
          ∀ m ∈ ms, m.opener = (run havePerror sa es).opener := by
  refine ⟨fun past h ev ftime => ?_, fun es more hmore => hmore.sent.2⟩
  obtain ⟨-, -, ms, hsent, hms⟩ := step_log havePerror sa (run havePerror sa past) h ev ftime
  rw [← run_append_singleton] at hsent hms
  refine ⟨ms, hsent, fun m => ?_⟩
  rw [hms, Option.ext_iff]
  simp only [opener_iff]

end SyslogSession

end I2util
