import I2util.Library.FileSystem
import I2util.Store.Format

/-!
`main` of `aespasswd.c` and `pfstore.c`, one step for each operation on the file
system.

The programs edit a file of records in place: they copy it, with one record
changed, to a lock file beside it, which they then rename. A process holds its
program counter, the streams `fromfp` and `tofp` and the row counter. The bytes
printed to `tofp` stay in its buffer until the buffer is full or the stream is
closed. `exit` closes it too.

Names are the names in the directory of the file. The arguments are those that
are left when the command line has been read; `passphrase` is what the user types
at the prompt, as the bytes that will be written.
-/

namespace I2util

abbrev Name := List UInt8

structure Args where
  fname : Name
  doCreate : Bool
  doDelete : Bool
  idname : List UInt8
  passphrase : Option (List UInt8)

def Args.addition (fname idname passphrase : List UInt8) : Args :=
  ⟨fname, false, false, idname, some passphrase⟩

def Args.deletion (fname idname : List UInt8) : Args := ⟨fname, false, true, idname, none⟩

structure Tool where
  progname : List UInt8
  format : Format
  /-- The longest identity that is accepted before the file is opened. -/
  maxIdentity : Option ℕ
  /-- The size of the buffer for the prompt. -/
  promptSize : ℕ

def aespasswd : Tool := ⟨ascii "aespasswd", keyFormat, some I2MAXIDENTITYLEN, 1024⟩

def pfstore : Tool := ⟨ascii "pfstore", pfFormat, none, 2048⟩

inductive Phase
  | openKey
  | openLock
  | setLock
  | prompt
  | firstPass
  | writeRecord
  | secondPass
  | closeFrom
  | rename
  | closeTo
  | exiting (status : ℕ)
  | exited (status : ℕ)
  deriving DecidableEq

/-- `fromfp` is an inode that is read from `pos` on. `tofp` has been written to up to
`written`, and `buf` is what its buffer holds. -/
structure Proc where
  phase : Phase
  fromfp : Option ℕ
  pos : ℕ
  tofp : Option ℕ
  written : ℕ
  buf : List UInt8
  rc : ℤ

def Phase.isExited : Phase → Bool
  | .exited _ => true
  | _ => false

def Proc.fresh (phase : Phase) (fromfp tofp : Option ℕ) : Proc := ⟨phase, fromfp, 0, tofp, 0, [], 0⟩

def Proc.start : Proc := .fresh .openKey none none

def Proc.goto (s : Proc) (phase : Phase) : Proc := { s with phase := phase }

@[simp] theorem Proc.goto_phase (s : Proc) (phase : Phase) : (s.goto phase).phase = phase := rfl

def Proc.print (s : Proc) (text : List UInt8) : Proc := { s with buf := s.buf ++ text }

abbrev Files (P : Type) := FileSystem Name P

variable {P : Type} [DecidableEq P]

/-- `write` of the first `n` bytes of the buffer of `tofp`. -/
def flush (n : ℕ) (fs : Files P) (s : Proc) : Files P × Proc :=
  match s.tofp with
  | none => (fs, s)
  | some i =>
      (fs.write i s.written (s.buf.take n),
        { s with written := s.written + (s.buf.take n).length, buf := s.buf.drop n })

/-- What a call of the reader does next: it copies a line or it returns. -/
def readStep (F : Format) (id : List UInt8) (fs : Files P) (s : Proc) : Proc × Bool :=
  match s.fromfp with
  | none => ({ s with rc := 0 }, true)
  | some i =>
      let fp := (fs.data i).drop s.pos
      match readRecords.body (F.judge (some id)) ⟨s.rc, fp, []⟩ with
      | .inl st =>
          ({ s with pos := s.pos + (fp.length - st.fp.length), rc := st.rc }.print st.out, false)
      | .inr r =>
          ({ s with pos := s.pos + (fp.length - r.rest.length), rc := r.rc }.print r.out, true)

namespace Tool

variable (T : Tool)

def lockfname : Name := ascii "." ++ T.progname ++ ascii ".lock"

def promptLength (idname : List UInt8) : ℕ :=
  (ascii "Enter passphrase for identity '" ++ idname ++ ascii "': ").length

def afterOpen (a : Args) (fromfp : Option ℕ) : Phase :=
  -- a file is created only if there is none
  if a.doCreate = true ∧ fromfp ≠ none then .exiting 1
  else if a.doCreate = false ∧ fromfp = none then .exiting 1
  else .openLock

def openKey (a : Args) (fs : Files P) (s : Proc) : Proc :=
  if ∃ n ∈ T.maxIdentity, n < a.idname.length then s.goto (.exiting 1)
  else { s with fromfp := fs.openFile a.fname }.goto (afterOpen a (fs.openFile a.fname))

def openLock (fs : Files P) (s : Proc) : Files P × Proc :=
  let (lockfd, fs) := fs.openCreate T.lockfname
  if lockfd = none then (fs, s.goto (.exiting 1))
  else (fs, { s with tofp := lockfd }.goto .setLock)

def setLock (p : P) (fs : Files P) (s : Proc) : Files P × Proc :=
  match s.tofp.bind fun i => fs.setLock p i with
  | none => (fs, s.goto (.exiting 1))
  | some fs => (fs, s.goto .prompt)

def afterPrompt (a : Args) : Phase :=
  if a.doDelete = true then .firstPass
  else if T.promptSize < promptLength a.idname then .exiting 1
  else if a.passphrase = none then .exiting 1
  else .firstPass

def afterFirst (a : Args) (rc : ℤ) : Phase :=
  if rc < 0 then .exiting 1
  else if a.doDelete = true ∧ rc = 0 then .exiting 1
  else .writeRecord

def afterSecond (rc : ℤ) : Phase := if rc ≠ 0 then .exiting 1 else .closeFrom

/-- A call of the reader, one line at a time. -/
def readPass (a : Args) (next : ℤ → Phase) (fs : Files P) (s : Proc) : Proc :=
  let (s, returned) := readStep T.format a.idname fs s
  if returned = true then s.goto (next s.rc) else s

def writeRecord (a : Args) (s : Proc) : Proc :=
  if a.doDelete = true then s.goto .secondPass
  else
    match a.passphrase with
    | none => s.goto (.exiting 1)
    | some value =>
        let (ret, line) := T.format.write a.idname value
        if ret < 0 then (s.print line).goto (.exiting 1) else (s.print line).goto .secondPass

/-- `exit` flushes and closes what is open. -/
def finish (p : P) (status : ℕ) (fs : Files P) (s : Proc) : Files P × Proc :=
  let (fs, s) := flush s.buf.length fs s
  (fs.exit p, s.goto (.exited status))

/-- The next operation of a process with room in its buffer. -/
def action (a : Args) (p : P) (fs : Files P) (s : Proc) : Files P × Proc :=
  match s.phase with
  | .openKey => (fs, T.openKey a fs s)
  | .openLock => T.openLock fs s
  | .setLock => setLock p fs s
  | .prompt => (fs, s.goto (T.afterPrompt a))
  | .firstPass => (fs, T.readPass a (afterFirst a) fs s)
  | .writeRecord => (fs, T.writeRecord a s)
  | .secondPass => (fs, T.readPass a afterSecond fs s)
  | .closeFrom => (s.fromfp.elim fs fun i => fs.close p i, s.goto .rename)
  | .rename => (fs.rename T.lockfname a.fname, s.goto .closeTo)
  | .closeTo => finish p 0 fs s
  | .exiting status => finish p status fs s
  | .exited _ => (fs, s)

/-- One operation on the file system. `bufsiz` is the size of a stream's buffer. A buffer
that is exactly full waits for the next byte, or for the end of the process. -/
def step (bufsiz : ℕ) (a : Args) (p : P) (fs : Files P) (s : Proc) : Files P × Proc :=
  if s.phase.isExited = true then (fs, s)
  -- a buffer that has overrun is written out before anything else happens
  else if bufsiz < s.buf.length then flush bufsiz fs s
  else T.action a p fs s

end Tool

structure Sys (P : Type) where
  fs : Files P
  proc : P → Proc

namespace Sys

variable (T : Tool) (bufsiz : ℕ) (args : P → Args)

def step (p : P) (sys : Sys P) : Sys P :=
  let (fs, s) := T.step bufsiz (args p) p sys.fs (sys.proc p)
  ⟨fs, Function.update sys.proc p s⟩

def run (sys : Sys P) (sched : List P) : Sys P :=
  sched.foldl (fun sys p => sys.step T bufsiz args p) sys

def start (fs : Files P) : Sys P := ⟨fs, fun _ => .start⟩

end Sys

end I2util
