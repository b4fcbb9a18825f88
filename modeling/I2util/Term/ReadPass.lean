import I2util.Conf.LineBuffer
import Mathlib.Logic.Function.Basic

/-!
`readpassphrase.c`: a pass-phrase is read from the terminal with its echo turned off.

Both functions begin anew when a stop signal was caught. What the terminal and the user do
from one beginning to the next is an `Attempt`; a function is given the list of them, and
waits when it has used them up. What is written to the terminal is left out.
-/

namespace I2util

inductive Signal
  | SIGINT | SIGHUP | SIGQUIT | SIGTERM | SIGTSTP | SIGTTIN | SIGTTOU
  deriving DecidableEq

def Signal.stops : Signal → Bool
  | SIGTSTP | SIGTTIN | SIGTTOU => true
  | SIGINT | SIGHUP | SIGQUIT | SIGTERM => false

/-- `handler` is the one of `readpassphrase.c`, which stores the signal in `signo`. -/
inductive SigAction
  | SIG_DFL | SIG_IGN | handler
  | other (f : ℕ)
  deriving DecidableEq

abbrev ECHO : UInt32 := 0x8
abbrev ECHONL : UInt32 := 0x40

abbrev I2RPP_ECHO_ON : UInt32 := 0x01
abbrev I2RPP_REQUIRE_TTY : UInt32 := 0x02
abbrev I2RPP_FORCELOWER : UInt32 := 0x04
abbrev I2RPP_FORCEUPPER : UInt32 := 0x08
abbrev I2RPP_SEVENBIT : UInt32 := 0x10

/-- `struct termios`. There is `c_cc[VSTATUS]` only on some systems, and `others` are the
members that stay as they are. -/
structure Termios where
  c_lflag : UInt32
  status : Option UInt8
  others : List UInt8
  deriving DecidableEq

abbrev POSIX_VDISABLE : UInt8 := 0

def Termios.quiet (flags : UInt32) (oterm : Termios) : Termios where
  c_lflag :=
    if flags &&& I2RPP_ECHO_ON = 0 then oterm.c_lflag &&& ~~~(ECHO ||| ECHONL) else oterm.c_lflag
  status := oterm.status.map fun _ => POSIX_VDISABLE
  others := oterm.others

/-- What one attempt meets: the descriptor that `open` returns, the device that is read,
whether `tcsetattr` turns the echo off, the bytes that are typed, whether `read` fails behind
them, the signal that is caught last, and whether `tcsetattr` restores the attributes. -/
structure Attempt where
  tty : Option ℕ
  device : ℕ
  sets : Bool
  keys : List UInt8
  fails : Bool
  caught : Option Signal
  restores : Bool

/-- The process and its terminals: the attributes of every device that is a terminal, the
actions for the signals, the descriptors that were opened, `signo`, and the signals that were
sent. -/
structure Process where
  attrs : ℕ → Option Termios
  actions : Signal → SigAction
  opened : List ℕ
  signo : Option Signal
  sent : List Signal

namespace Process

def enter (flags : UInt32) (att : Attempt) (w : Process) : Process where
  attrs :=
    if att.sets then
      Function.update w.attrs att.device ((w.attrs att.device).map (Termios.quiet flags))
    else w.attrs
  actions := fun _ => .handler
  opened := att.tty.toList ++ w.opened
  signo := att.caught.or w.signo
  sent := w.sent

/-- The end of an attempt that began in `before`. The attributes are restored if they were
to be changed, and standard input is not closed. -/
def leave (flags : UInt32) (att : Attempt) (before w : Process) : Process where
  attrs :=
    match before.attrs att.device with
    | none => w.attrs
    | some oterm =>
        if oterm.quiet flags ≠ oterm ∧ att.restores then
          Function.update w.attrs att.device (some oterm)
        else w.attrs
  actions := before.actions
  opened := if att.tty = some 0 then w.opened else att.tty.elim w.opened w.opened.erase
  signo := w.signo
  sent := w.sent

end Process

inductive PassNext
  | done | restart | killed
  deriving DecidableEq

/-- A signal that was caught is sent again. A stop signal takes the function back to its
beginning, and another one ends the process if its action is the default. -/
def Process.resend (w : Process) : PassNext × Process :=
  match w.signo with
  | none => (.done, w)
  | some s =>
      let w := { w with sent := s :: w.sent }
      if s.stops then (.restart, { w with signo := none })
      else if w.actions s = .SIG_DFL then (.killed, w)
      else (.done, w)

/-! ### The bytes that are typed -/

def isalpha (c : UInt8) : Bool := 65 ≤ c && c ≤ 90 || 97 ≤ c && c ≤ 122

def toupper (c : UInt8) : UInt8 := if 97 ≤ c ∧ c ≤ 122 then c - 32 else c

abbrev cr : UInt8 := 13

def saved (flags : UInt32) (ch : UInt8) : UInt8 :=
  let ch := if flags &&& I2RPP_SEVENBIT ≠ 0 then ch &&& 0x7f else ch
  if isalpha ch then
    let ch := if flags &&& I2RPP_FORCELOWER ≠ 0 then tolower ch else ch
    if flags &&& I2RPP_FORCEUPPER ≠ 0 then toupper ch else ch
  else ch

/-- `errno`, where a null pointer is returned. `ofRead` is what the last `read` left in it. -/
inductive Errno
  | EINVAL | ENOTTY | ENOMEM | ofRead
  deriving DecidableEq

namespace Attempt

/-- The last `read` returned -1. -/
def failed (att : Attempt) : Bool :=
  att.fails && att.keys.all fun ch => ch ≠ nl && ch ≠ cr

def lacksTty (flags : UInt32) (att : Attempt) : Prop :=
  att.tty = none ∧ flags &&& I2RPP_REQUIRE_TTY ≠ 0

instance (flags : UInt32) (att : Attempt) : Decidable (att.lacksTty flags) := by
  unfold lacksTty
  infer_instance

/-- What a call that ends with the attempt leaves in `errno`. -/
def errno (att : Attempt) : Option Errno := if att.failed then some .ofRead else none

end Attempt

/-- What a call has come to: it waits, the process was ended, or it returned. -/
inductive Outcome (ρ : Type)
  | waiting
  | killed
  | returned (r : ρ)

/-! ### `I2ReadPassPhrase` -/

/-- The loop that reads. A byte for which there is no room is lost. -/
def i2ReadPassPhrase.read (flags : UInt32) (buf : List UInt8) (p : ℕ) : List UInt8 → List UInt8
  | [] => buf.set p 0
  | ch :: keys =>
      if ch = nl ∨ ch = cr then buf.set p 0
      else if p < buf.length - 1 then read flags (buf.set p (saved flags ch)) (p + 1) keys
      else read flags buf p keys

/-- What a call returns, and what it leaves. -/
structure PassReturn where
  ret : Bool
  errno : Option Errno
  buf : List UInt8
  proc : Process

def i2ReadPassPhrase (flags : UInt32) (buf : List UInt8) : List Attempt → Process →
    Outcome PassReturn
  | [], w => if buf.length = 0 then .returned ⟨false, some .EINVAL, buf, w⟩ else .waiting
  | att :: tries, w =>
      if buf.length = 0 then .returned ⟨false, some .EINVAL, buf, w⟩
      else if att.lacksTty flags then .returned ⟨false, some .ENOTTY, buf, w⟩
      else
        let buf := i2ReadPassPhrase.read flags buf 0 att.keys
        match (Process.leave flags att w (w.enter flags att)).resend with
        | (.done, w) => .returned ⟨!att.failed, att.errno, buf, w⟩
        | (.restart, w) => i2ReadPassPhrase flags buf tries w
        | (.killed, _) => .killed

/-! ### `I2ReadPassPhraseAlloc` -/

/-- The buffer, the place of the next byte, and the number of bytes counted so far. -/
structure PassLine where
  lbuf : Lbuf
  p : ℕ
  pf_len : ℕ

namespace PassLine

def grow (a : Growing.Realloc UInt8) (st : PassLine) : Bool × PassLine :=
  if st.lbuf.max < st.pf_len + 1 then
    let (ok, lbuf) := st.lbuf.grow a I2LINEBUFINC (st.pf_len + 1)
    (ok, { st with lbuf := lbuf, p := st.pf_len })
  else (true, st)

def save (st : PassLine) (ch : UInt8) : PassLine where
  lbuf := st.lbuf.put st.p ch
  p := st.p + 1
  pf_len := st.pf_len + 1

def finish (a : Growing.Realloc UInt8) (st : PassLine) : Bool × PassLine :=
  match st.grow a with
  | (false, st) => (false, st)
  | (true, st) => (true, { st with lbuf := st.lbuf.put st.p 0 })

end PassLine

/-- The loop that reads, and whether every allocation succeeded. -/
def i2ReadPassPhraseAlloc.read (flags : UInt32) (a : Growing.Realloc UInt8) (st : PassLine) :
    List UInt8 → Bool × PassLine
  | [] => st.finish a
  | ch :: keys =>
      if ch = nl ∨ ch = cr then st.finish a
      else
        match st.grow a with
        | (false, st) => (false, st)
        | (true, st) => read flags a (st.save (saved flags ch)) keys

structure AllocReturn where
  ret : Bool
  errno : Option Errno
  lbuf : Lbuf
  proc : Process

/-- The restart takes `p` back to the beginning of the line, and leaves `pf_len` as it is. -/
def i2ReadPassPhraseAlloc.run (flags : UInt32) (a : Growing.Realloc UInt8) (st : PassLine) :
    List Attempt → Process → Outcome AllocReturn
  | [], _ => .waiting
  | att :: tries, w =>
      if att.lacksTty flags then .returned ⟨false, some .ENOTTY, st.lbuf, w⟩
      else
        match i2ReadPassPhraseAlloc.read flags a { st with p := 0 } att.keys with
        -- nothing is restored on this way out
        | (false, st) => .returned ⟨false, some .ENOMEM, st.lbuf, w.enter flags att⟩
        | (true, st) =>
            match (Process.leave flags att w (w.enter flags att)).resend with
            | (.done, w) => .returned ⟨!att.failed, att.errno, st.lbuf, w⟩
            | (.restart, w) => run flags a st tries w
            | (.killed, _) => .killed

def i2ReadPassPhraseAlloc (flags : UInt32) (a : Growing.Realloc UInt8) (lbuf : Lbuf)
    (tries : List Attempt) (w : Process) : Outcome AllocReturn :=
  i2ReadPassPhraseAlloc.run flags a ⟨lbuf, 0, 0⟩ tries w

/-! ### Restarts -/

section Restarts

variable {flags : UInt32} {a : Growing.Realloc UInt8} {st : PassLine} {w : Process}
  {att last : Attempt} {tries earlier : List Attempt}

def Process.attempt (flags : UInt32) (w : Process) (att : Attempt) : PassNext × Process :=
  (Process.leave flags att w (w.enter flags att)).resend

def PassLine.attempt (flags : UInt32) (a : Growing.Realloc UInt8) (st : PassLine)
    (att : Attempt) : Bool × PassLine :=
  i2ReadPassPhraseAlloc.read flags a { st with p := 0 } att.keys

def Process.after (flags : UInt32) (w : Process) (earlier : List Attempt) : Process :=
  earlier.foldl (fun w att => (w.attempt flags att).2) w

def PassLine.after (flags : UInt32) (a : Growing.Realloc UInt8) (st : PassLine)
    (earlier : List Attempt) : PassLine :=
  earlier.foldl (fun st att => (st.attempt flags a att).2) st

structure Interrupted (flags : UInt32) (a : Growing.Realloc UInt8) (st : PassLine) (w : Process)
    (att : Attempt) : Prop where
  tty : ¬att.lacksTty flags
  read : (st.attempt flags a att).1 = true
  next : (w.attempt flags att).1 = .restart

namespace i2ReadPassPhraseAlloc

theorem run_cons (att : Attempt) (tries : List Attempt) :
    run flags a st (att :: tries) w =
      if att.lacksTty flags then .returned ⟨false, some .ENOTTY, st.lbuf, w⟩
      else if (st.attempt flags a att).1 = false then
        .returned ⟨false, some .ENOMEM, (st.attempt flags a att).2.lbuf, w.enter flags att⟩
      else
        match (w.attempt flags att).1 with
        | .done =>
            .returned ⟨!att.failed, att.errno, (st.attempt flags a att).2.lbuf,
              (w.attempt flags att).2⟩
        | .restart => run flags a (st.attempt flags a att).2 tries (w.attempt flags att).2
        | .killed => .killed := by
  rw [run]
  by_cases htty : att.lacksTty flags
  · rw [if_pos htty, if_pos htty]
  · rw [if_neg htty, if_neg htty, PassLine.attempt]
    rcases i2ReadPassPhraseAlloc.read flags a { st with p := 0 } att.keys with ⟨_ | _, st'⟩
    · rfl
    · rw [if_neg (by simp), Process.attempt]
      rcases (Process.leave flags att w (w.enter flags att)).resend with ⟨_ | _ | _, w'⟩ <;> rfl

theorem Interrupted.run_eq (h : Interrupted flags a st w att) (tries : List Attempt) :
    run flags a st (att :: tries) w =
      run flags a (st.attempt flags a att).2 tries (w.attempt flags att).2 := by
  rw [run_cons, if_neg h.tty, if_neg (by rw [h.read]; decide), h.next]

/-- The ways in which an attempt leads to a return. -/
theorem returned_cases {r : AllocReturn} (hrun : run flags a st (att :: tries) w = .returned r) :
    (att.lacksTty flags ∧ r = ⟨false, some .ENOTTY, st.lbuf, w⟩) ∨
      (¬att.lacksTty flags ∧ (st.attempt flags a att).1 = false ∧
        r = ⟨false, some .ENOMEM, (st.attempt flags a att).2.lbuf, w.enter flags att⟩) ∨
      (¬att.lacksTty flags ∧ (st.attempt flags a att).1 = true ∧
        (w.attempt flags att).1 = .done ∧
        r = ⟨!att.failed, att.errno, (st.attempt flags a att).2.lbuf, (w.attempt flags att).2⟩) ∨
      (Interrupted flags a st w att ∧
        run flags a (st.attempt flags a att).2 tries (w.attempt flags att).2 = .returned r) := by
  rw [run_cons] at hrun
  split_ifs at hrun with htty hread
  · exact .inl ⟨htty, (Outcome.returned.inj hrun).symm⟩
  · exact .inr (.inl ⟨htty, hread, (Outcome.returned.inj hrun).symm⟩)
  · have hok : (st.attempt flags a att).1 = true := by simpa using hread
    cases hnext : (w.attempt flags att).1 with
    | done =>
        simp only [hnext] at hrun
        exact .inr (.inr (.inl ⟨htty, hok, rfl, (Outcome.returned.inj hrun).symm⟩))
    | restart =>
        simp only [hnext] at hrun
        exact .inr (.inr (.inr ⟨⟨htty, hok, hnext⟩, hrun⟩))
    | killed =>
        simp only [hnext] at hrun
        cases hrun

/-- A function that waits was interrupted in every attempt. -/
theorem interrupted_of_waiting (hwait : run flags a st (att :: tries) w = .waiting) :
    Interrupted flags a st w att := by
  rw [run_cons] at hwait
  split_ifs at hwait with htty hread
  refine ⟨htty, by simpa using hread, ?_⟩
  cases hnext : (w.attempt flags att).1 with
  | restart => rfl
  | done => simp [hnext] at hwait
  | killed => simp [hnext] at hwait

/-- The attempts that come behind those. -/
theorem run_append (hwait : run flags a st earlier w = .waiting) (tries : List Attempt) :
    run flags a st (earlier ++ tries) w =
      run flags a (st.after flags a earlier) tries (w.after flags earlier) := by
  induction earlier generalizing st w with
  | nil => rfl
  | cons att earlier ih =>
      have hint := interrupted_of_waiting hwait
      rw [Interrupted.run_eq hint] at hwait
      rw [List.cons_append, Interrupted.run_eq hint]
      exact ih hwait

end i2ReadPassPhraseAlloc

end Restarts

end I2util
