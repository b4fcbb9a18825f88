import I2util.Conf.Text

/-!
The events of `ErrLog.c`: `I2ErrLogVT` builds one and hands it to the log function of
its handle.
-/

namespace I2util

abbrev I2NAME : UInt64 := 1
abbrev I2FILE : UInt64 := 2
abbrev I2LINE : UInt64 := 4
abbrev I2DATE : UInt64 := 8
abbrev I2RTIME : UInt64 := 16
abbrev I2MSG : UInt64 := 32
abbrev I2CODE : UInt64 := 64
abbrev I2LEVEL : UInt64 := 128

abbrev I2LOG_NONE : ℤ := 8

/-- The mask says which of the other fields are valid. A field that is not is 0. -/
structure I2ErrLogEvent where
  mask : UInt64
  name : List UInt8
  file : List UInt8
  line : ℤ
  date : List UInt8
  code : ℤ
  level : ℤ
  msg : List UInt8
  deriving DecidableEq

def decimalInt (n : ℤ) : List UInt8 :=
  if n < 0 then 45 :: decimal n.natAbs else decimal n.natAbs

/-- What the log functions print in front of the message. `shown` are the bits of
`line_info` that the mask has too; the time is not looked up in the mask. `ftime` is what
`strftime` makes of it, and empty when it returns 0. -/
def eventPieces (shown line_info : UInt64) (ev : I2ErrLogEvent) (ftime : List UInt8) :
    List (List UInt8) :=
  (if shown &&& I2NAME ≠ 0 then [ev.name ++ ascii ": "] else []) ++
  (if shown &&& I2FILE ≠ 0 then [ascii "FILE=" ++ ev.file ++ ascii ", "] else []) ++
  (if shown &&& I2LINE ≠ 0 then [ascii "LINE=" ++ decimalInt ev.line ++ ascii ", "] else []) ++
  (if shown &&& I2DATE ≠ 0 then [ascii "DATE=" ++ ev.date ++ ascii ", "] else []) ++
  (if line_info &&& I2RTIME ≠ 0 ∧ ftime ≠ [] then
    [ascii "RTIME=" ++ ftime ++ ascii ", "] else [])

/-- The static variables that `I2ErrLocation_` writes. -/
structure ErrLocation where
  errorFile : List UInt8
  errorDate : List UInt8
  errorLine : ℤ
  deriving DecidableEq

/-- What a call of `I2ErrLogVT` does with its message. -/
inductive ErrLogged
  | nothing
  | stderr (buf : List UInt8)
  | log_func (event : I2ErrLogEvent)
  deriving DecidableEq

/-- A handle is given by its program name. `vsnprintf` is the text that the format and the
arguments stand for, when the error code is what `%M` and `%N` refer to. -/
def i2ErrLogVT (eh : Option (List UInt8)) (loc : ErrLocation) (errno level code : ℤ)
    (vsnprintf : ℤ → List UInt8) : ErrLogged :=
  if level = I2LOG_NONE then .nothing
  else
    let codeMask := if code = 0 then 0 else I2CODE
    let buf := cstr ((vsnprintf (if code = 0 then errno else code)).take 10239)
    match eh with
    | none => .stderr (buf ++ [nl])
    | some program_name =>
        let mask := codeMask ||| I2NAME ||| I2FILE ||| I2LINE ||| I2DATE ||| I2MSG
        let valid := -1 < level ∧ level < 8
        .log_func
          { mask := if valid then mask ||| I2LEVEL else mask
            name := program_name
            file := loc.errorFile
            line := loc.errorLine
            date := loc.errorDate
            code := code
            level := if valid then level else 0
            msg := buf }

variable {eh : Option (List UInt8)} {loc : ErrLocation} {errno level code : ℤ}
  {vsnprintf : ℤ → List UInt8} {ev : I2ErrLogEvent}

theorem i2ErrLogVT_msg (h : i2ErrLogVT eh loc errno level code vsnprintf = .log_func ev) :
    ev.msg.length ≤ 10239 := by
  rw [i2ErrLogVT] at h
  split at h
  · cases h
  · cases eh with
    | none => cases h
    | some program_name =>
        cases h
        exact (List.takeWhile_sublist _).length_le.trans (List.length_take_le _ _)

theorem i2ErrLogVT_mask (h : i2ErrLogVT eh loc errno level code vsnprintf = .log_func ev) :
    ∀ flag ∈ [I2NAME, I2FILE, I2LINE, I2DATE, I2MSG], ev.mask &&& flag = flag := by
  rw [i2ErrLogVT] at h
  split at h
  · cases h
  · cases eh with
    | none => cases h
    | some program_name =>
        cases h
        intro flag hflag
        simp only [List.mem_cons, List.not_mem_nil, or_false] at hflag
        rcases hflag with rfl | rfl | rfl | rfl | rfl <;> simp only <;> split_ifs <;> rfl

end I2util
