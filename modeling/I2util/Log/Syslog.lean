import I2util.Library.Cells
import I2util.Log.Event

/-!
`I2ErrLogSyslog`: a line is put together in an array of 4096 bytes and handed to `syslog`.

Every piece of the line is appended with a cursor and a remaining size, which go on by the
value `snprintf` returns. The message comes last, without a bound.
-/

namespace I2util

/-- `snprintf` of a text: the value returned and the bytes written. A length that is no
`int` is an error. -/
def snprintf (size : ℕ) (text : List UInt8) : ℤ × List UInt8 :=
  if text.length ≤ 2147483647 then
    (text.length, if size = 0 then [] else text.take (size - 1) ++ [0])
  else (-1, [])

/-- The array `buf`, the cursor as a distance from its start, and the remaining size.
`wrapped` records that more was taken from the size than it had. -/
structure LineBuf where
  buf : ℤ → Option UInt8
  bufptr : ℤ
  size : UInt64
  wrapped : Bool

namespace LineBuf

def start : LineBuf := ⟨fun _ => none, 0, 4096, false⟩

/-- `snprintf` at the cursor, and the two steps behind it. -/
def snprintf (st : LineBuf) (text : List UInt8) : LineBuf :=
  let (rc, written) := I2util.snprintf st.size.toNat text
  { buf := Cells.store st.buf st.bufptr written
    bufptr := st.bufptr + rc
    size := st.size - UInt64.ofInt rc
    wrapped := st.wrapped || st.size < UInt64.ofInt rc }

def sprintf (st : LineBuf) (text : List UInt8) : LineBuf :=
  let (rc, written) := I2util.snprintf (text.length + 1) text
  { st with
    buf := Cells.store st.buf st.bufptr written
    bufptr := st.bufptr + rc }

end LineBuf

structure I2ErrLogSyslogAttr where
  ident : Option (List UInt8)
  logopt : UInt32
  facility : ℤ
  priority : ℤ
  report_level : ℤ
  line_info : UInt64
  deriving DecidableEq

/-- A call that leaves the function. A text is what stands at `buf`, if that is a string. -/
inductive SyslogCall
  | openlog (ident : List UInt8) (logopt : UInt32) (facility : ℤ)
  | syslog (prio : ℤ) (text : Option (List UInt8))
  | stderr (text : Option (List UInt8))
  deriving DecidableEq

def i2ErrLogSyslog.pieces (sa : I2ErrLogSyslogAttr) (ev : I2ErrLogEvent) (ftime : List UInt8)
    (st : LineBuf) : LineBuf :=
  (eventPieces (ev.mask &&& sa.line_info) sa.line_info ev ftime).foldl LineBuf.snprintf st

/-- What a call leaves behind: the line, `*data`, and the calls made. -/
structure SyslogRun where
  line : LineBuf
  data : Bool
  calls : List SyslogCall

abbrev LOG_PERROR : UInt32 := 0x20

/-- The calls at the end. `havePerror` says that `HAVE_SYSLOG_PERROR` is defined. -/
def i2ErrLogSyslog.send (havePerror : Bool) (ev : I2ErrLogEvent) (sa : I2ErrLogSyslogAttr)
    (st : LineBuf) : List SyslogCall :=
  let prio := if ev.mask &&& I2LEVEL ≠ 0 then ev.level else sa.priority
  let text := Cells.readUntil 0 st.buf 0 4096
  (if prio ≠ I2LOG_NONE ∧ prio ≤ sa.report_level then [.syslog prio text] else []) ++
    -- the bit is tested with an or, which is never 0
    (if ¬havePerror ∧ sa.logopt ||| LOG_PERROR ≠ 0 then [.stderr text] else [])

/-- `data` says that `*data` is not null. -/
def i2ErrLogSyslog (havePerror : Bool) (ev : I2ErrLogEvent) (sa : I2ErrLogSyslogAttr)
    (data : Bool) (ftime : List UInt8) : SyslogRun :=
  let opened := if data then [] else
    sa.ident.toList.map fun ident => SyslogCall.openlog ident sa.logopt sa.facility
  let st := i2ErrLogSyslog.pieces sa ev ftime .start
  let st := if ev.mask &&& sa.line_info &&& I2MSG ≠ 0 then st.sprintf ev.msg else st
  { line := st
    data := data || sa.ident.isSome
    -- the line is sent if the cursor has moved
    calls := if st.bufptr = 0 then opened else
      opened ++ i2ErrLogSyslog.send havePerror ev sa st }

/-- Every write is inside the array, the remaining size does not wrap, and `syslog` is
handed a string. -/
structure SyslogRun.Safe (run : SyslogRun) : Prop where
  within : Cells.Within 4096 run.line.buf
  size : run.line.wrapped = false
  text : ∀ prio, SyslogCall.syslog prio none ∉ run.calls

/-! ### The pieces of a line -/

/-- The pieces of a line in front of the message, when the event has every field. -/
def linePieces (sa : I2ErrLogSyslogAttr) (ev : I2ErrLogEvent) (ftime : List UInt8) :
    List (List UInt8) :=
  eventPieces sa.line_info sa.line_info ev ftime

/-- The pieces fill the array at most, and leave room for the message and its end. -/
def SyslogFits (sa : I2ErrLogSyslogAttr) (ev : I2ErrLogEvent) (ftime : List UInt8) : Prop :=
  (linePieces sa ev ftime).flatten.length ≤ 4096 ∧
    (sa.line_info &&& I2MSG ≠ 0 →
      (linePieces sa ev ftime).flatten.length + ev.msg.length ≤ 4095)

theorem pieces_eq {sa : I2ErrLogSyslogAttr} {ev : I2ErrLogEvent} (ftime : List UInt8)
    (hmask : ∀ flag ∈ [I2NAME, I2FILE, I2LINE, I2DATE, I2MSG], ev.mask &&& flag = flag)
    (st : LineBuf) :
    i2ErrLogSyslog.pieces sa ev ftime st = (linePieces sa ev ftime).foldl LineBuf.snprintf st := by
  have hshown : ∀ flag ∈ [I2NAME, I2FILE, I2LINE, I2DATE, I2MSG],
      ev.mask &&& sa.line_info &&& flag = sa.line_info &&& flag := fun flag hflag => by
    rw [UInt64.and_comm ev.mask, UInt64.and_assoc, hmask flag hflag]
  rw [i2ErrLogSyslog.pieces, linePieces, eventPieces, eventPieces, hshown _ (by simp),
    hshown _ (by simp), hshown _ (by simp), hshown _ (by simp)]

theorem linePieces_ne_nil {sa : I2ErrLogSyslogAttr} {ev : I2ErrLogEvent} {ftime : List UInt8} :
    ∀ text ∈ linePieces sa ev ftime, text ≠ [] := by
  have hpiece : ∀ (p : Prop) [Decidable p] (a b : List UInt8) (c : UInt8),
      ∀ text ∈ (if p then [a ++ c :: b] else []), text ≠ [] := fun p _ a b c text htext => by
    split at htext
    · rw [List.mem_singleton.mp htext]
      simp
    · cases htext
  intro text htext
  simp only [linePieces, eventPieces, List.mem_append] at htext
  rcases htext with (((h | h) | h) | h) | h <;> exact hpiece _ _ _ _ text h

namespace LineBuf

/-- The text `done` stands in the array, as far as it fits, with a NUL behind it. -/
structure Holds (st : LineBuf) (done : List UInt8) : Prop where
  fits : done.length ≤ 4096
  buf : st.buf = if done = [] then fun _ => none else
    Cells.store (fun _ => none) 0 (done.take 4095 ++ [0])
  bufptr : st.bufptr = done.length
  size : st.size.toNat = 4096 - done.length
  wrapped : st.wrapped = false

variable {st : LineBuf} {done text : List UInt8}

theorem holds_start : Holds start [] := ⟨by simp, rfl, rfl, rfl, rfl⟩

/-- Appending overwrites the NUL. -/
theorem Holds.store (h : Holds st done) (hroom : done.length ≤ 4095) {cs : List UInt8}
    (hcs : cs ≠ []) :
    Cells.store st.buf st.bufptr cs = Cells.store (fun _ => none) 0 (done ++ cs) := by
  rw [h.buf, h.bufptr]
  by_cases hdone : done = []
  · subst hdone
    rfl
  · have hover := Cells.store_over (fun _ => none) 0 done (0 : UInt8) hcs
    rw [Int.zero_add] at hover
    rw [if_neg hdone, List.take_of_length_le hroom, hover]

/-- The remaining size as `snprintf` leaves it. -/
theorem ofInt_length (hlen : text.length ≤ 2147483647) :
    (UInt64.ofInt text.length).toNat = text.length := by
  rw [UInt64.ofInt, UInt64.toNat_ofNat_of_lt']
  · omega
  · simp only [UInt64.size]
    omega

theorem Holds.snprintf (h : Holds st done) (htext : text ≠ [])
    (hfits : done.length + text.length ≤ 4096) : Holds (st.snprintf text) (done ++ text) := by
  have hpos : 0 < text.length := List.length_pos_iff.mpr htext
  have hsize := h.size
  have hint : text.length ≤ 2147483647 := by omega
  have hzero : st.size.toNat ≠ 0 := by omega
  have hrc := ofInt_length hint
  have hle : UInt64.ofInt text.length ≤ st.size := by
    rw [UInt64.le_iff_toNat_le, hrc]
    omega
  constructor
  · rw [List.length_append]
    exact hfits
  · have htake : (done ++ text).take 4095 = done ++ text.take (st.size.toNat - 1) := by
      rw [List.take_append, List.take_of_length_le (by omega)]
      congr 2
      omega
    rw [LineBuf.snprintf, I2util.snprintf, if_pos hint, if_neg hzero]
    simp only
    rw [h.store (by omega) (by simp), htake, if_neg (by simp [htext]), List.append_assoc]
  · rw [LineBuf.snprintf, I2util.snprintf, if_pos hint, List.length_append]
    simp only
    rw [h.bufptr]
    rfl
  · rw [LineBuf.snprintf, I2util.snprintf, if_pos hint, List.length_append]
    simp only
    rw [UInt64.toNat_sub_of_le _ _ hle, hrc, hsize]
    omega
  · rw [LineBuf.snprintf, I2util.snprintf, if_pos hint]
    simp [h.wrapped, UInt64.not_lt.mpr hle]

/-- A piece that does not fit takes more from the size than it has. -/
theorem Holds.snprintf_wraps (h : Holds st done) (hover : 4096 < done.length + text.length) :
    (st.snprintf text).wrapped = true := by
  have hsize := h.size
  have hfits := h.fits
  rw [LineBuf.snprintf, I2util.snprintf]
  by_cases hint : text.length ≤ 2147483647
  · have hlt : st.size < UInt64.ofInt text.length := by
      rw [UInt64.lt_iff_toNat_lt, ofInt_length hint]
      omega
    rw [if_pos hint]
    simp [hlt]
  · have hlt : st.size < -1 := by
      rw [UInt64.lt_iff_toNat_lt]
      show _ < 18446744073709551615
      omega
    rw [if_neg hint]
    simp [hlt]

theorem foldl_wrapped (h : st.wrapped = true) (texts : List (List UInt8)) :
    (texts.foldl LineBuf.snprintf st).wrapped = true := by
  induction texts generalizing st with
  | nil => exact h
  | cons text texts ih =>
      apply ih
      rw [LineBuf.snprintf]
      simp [h]

theorem Holds.foldl (h : Holds st done) {texts : List (List UInt8)}
    (hne : ∀ text ∈ texts, text ≠ []) :
    (done.length + texts.flatten.length ≤ 4096 →
      Holds (texts.foldl LineBuf.snprintf st) (done ++ texts.flatten)) ∧
    (4096 < done.length + texts.flatten.length →
      (texts.foldl LineBuf.snprintf st).wrapped = true) := by
  induction texts generalizing st done with
  | nil =>
      have hfits := h.fits
      constructor
      · intro _
        simpa using h
      · intro hover
        simp only [List.flatten_nil, List.length_nil] at hover
        omega
  | cons text texts ih =>
      have htext := hne text List.mem_cons_self
      have hrest : ∀ t ∈ texts, t ≠ [] := fun t ht => hne t (List.mem_cons_of_mem text ht)
      simp only [List.flatten_cons, List.length_append, List.foldl_cons]
      by_cases hfits : done.length + text.length ≤ 4096
      · have htail := ih (h.snprintf htext hfits) hrest
        rw [List.length_append, List.append_assoc, Nat.add_assoc] at htail
        exact htail
      · constructor
        · intro hall
          omega
        · intro _
          exact foldl_wrapped (h.snprintf_wraps (Nat.not_le.mp hfits)) texts

theorem Holds.within (h : Holds st done) : Cells.Within 4096 st.buf := by
  have hnone : Cells.Within (α := UInt8) 4096 (fun _ => none) := fun j hj => absurd rfl hj
  rw [h.buf]
  split
  · exact hnone
  · have hlen := List.length_take_le 4095 done
    refine (Cells.within_store (by simp)).mpr ⟨hnone, Int.le_refl 0, ?_⟩
    simp only [List.length_append, List.length_singleton]
    omega

theorem Holds.read (h : Holds st done) (hdone : done ≠ []) :
    Cells.readUntil 0 st.buf 0 4096 = some (cstr (done.take 4095)) := by
  have hlen := List.length_take_le 4095 done
  rw [h.buf, if_neg hdone, Cells.readUntil_store _ _ _ (by omega)]
  rfl

/-- The message is written into the array if there is room for it and its end. -/
theorem Holds.sprintf_within (h : Holds st done) (htext : text.length ≤ 2147483647) :
    Cells.Within 4096 (st.sprintf text).buf ↔ done.length + text.length ≤ 4095 := by
  have hbuf : (st.sprintf text).buf = Cells.store st.buf st.bufptr (text ++ [0]) := by
    rw [sprintf, I2util.snprintf, if_pos htext]
    simp
  rw [hbuf, Cells.within_store (by simp), h.bufptr, List.length_append, List.length_singleton]
  constructor
  · rintro ⟨-, -, hroom⟩
    omega
  · intro hroom
    exact ⟨h.within, by omega, by omega⟩

theorem Holds.sprintf_read (h : Holds st done) (hroom : done.length + text.length ≤ 4095) :
    Cells.readUntil 0 (st.sprintf text).buf 0 4096 = some (cstr (done ++ text)) := by
  have hbuf : (st.sprintf text).buf = Cells.store (fun _ => none) 0 ((done ++ text) ++ [0]) := by
    rw [List.append_assoc, ← h.store (by omega) (by simp), sprintf, I2util.snprintf,
      if_pos (by omega)]
    simp
  rw [hbuf, Cells.readUntil_store _ _ _ (by rw [List.length_append]; omega)]
  rfl

end LineBuf

/-! ### The whole line -/

section Line

variable {eh : Option (List UInt8)} {loc : ErrLocation} {errno level code : ℤ}
  {vsnprintf : ℤ → List UInt8} {ev : I2ErrLogEvent} {havePerror : Bool}
  {sa : I2ErrLogSyslogAttr} {data : Bool} {ftime : List UInt8}

theorem i2ErrLogSyslog_line (hev : i2ErrLogVT eh loc errno level code vsnprintf = .log_func ev) :
    (i2ErrLogSyslog havePerror ev sa data ftime).line =
      let st := (linePieces sa ev ftime).foldl LineBuf.snprintf .start
      if sa.line_info &&& I2MSG ≠ 0 then st.sprintf ev.msg else st := by
  have hmask := i2ErrLogVT_mask hev
  have hmsg : ev.mask &&& sa.line_info &&& I2MSG = sa.line_info &&& I2MSG := by
    rw [UInt64.and_comm ev.mask, UInt64.and_assoc, hmask I2MSG (by simp)]
  simp only [i2ErrLogSyslog, pieces_eq ftime hmask, hmsg]

theorem i2ErrLogSyslog.send_text {st : LineBuf} {prio : ℤ} {text : Option (List UInt8)}
    (h : SyslogCall.syslog prio text ∈ i2ErrLogSyslog.send havePerror ev sa st) :
    text = Cells.readUntil 0 st.buf 0 4096 := by
  simp only [i2ErrLogSyslog.send, List.mem_append, List.mem_ite_nil_right,
    List.mem_singleton] at h
  rcases h with ⟨-, h⟩ | ⟨-, h⟩
  · exact (SyslogCall.syslog.inj h).2
  · cases h

/-- The text that `syslog` is handed, if it is called. -/
theorem i2ErrLogSyslog_text {prio : ℤ} {text : Option (List UInt8)}
    (h : SyslogCall.syslog prio text ∈ (i2ErrLogSyslog havePerror ev sa data ftime).calls) :
    let line := (i2ErrLogSyslog havePerror ev sa data ftime).line
    text = Cells.readUntil 0 line.buf 0 4096 ∧ line.bufptr ≠ 0 := by
  have hopened : SyslogCall.syslog prio text ∉ (if data = true then [] else
      sa.ident.toList.map fun ident => SyslogCall.openlog ident sa.logopt sa.facility) := by
    split <;> simp
  intro line
  change SyslogCall.syslog prio text ∈ (if line.bufptr = 0 then _ else _ ++ _) at h
  by_cases hptr : line.bufptr = 0
  · rw [if_pos hptr] at h
    exact absurd h hopened
  · rw [if_neg hptr, List.mem_append] at h
    exact ⟨i2ErrLogSyslog.send_text (h.resolve_left hopened), hptr⟩

theorem syslogSafe_iff
    (hev : i2ErrLogVT eh loc errno level code vsnprintf = .log_func ev) (havePerror : Bool)
    (sa : I2ErrLogSyslogAttr) (data : Bool) (ftime : List UInt8) :
    (i2ErrLogSyslog havePerror ev sa data ftime).Safe ↔ SyslogFits sa ev ftime := by
  have hmsg : ev.msg.length ≤ 2147483647 := (i2ErrLogVT_msg hev).trans (by decide)
  have hline := @i2ErrLogSyslog_line _ _ _ _ _ _ _ havePerror sa data ftime hev
  obtain ⟨hholds, hwraps⟩ := LineBuf.holds_start.foldl (@linePieces_ne_nil sa ev ftime)
  simp only [List.length_nil, Nat.zero_add, List.nil_append] at hholds hwraps
  constructor
  · rintro ⟨hwithin, hsize, -⟩
    have hfits : (linePieces sa ev ftime).flatten.length ≤ 4096 := by
      by_contra hover
      -- the size has wrapped, and the message leaves it so
      have hwrapped := hwraps (Nat.not_le.mp hover)
      rw [hline] at hsize
      split at hsize
      · exact absurd hsize (by simp [LineBuf.sprintf, hwrapped])
      · exact absurd hsize (by simp [hwrapped])
    refine ⟨hfits, fun hshown => ?_⟩
    rw [hline, if_pos hshown] at hwithin
    exact ((hholds hfits).sprintf_within hmsg).mp hwithin
  · rintro ⟨hfits, hroom⟩
    have hst := hholds hfits
    by_cases hshown : sa.line_info &&& I2MSG ≠ 0
    · rw [if_pos hshown] at hline
      -- the message and its end fit behind the pieces
      refine ⟨?_, ?_, ?_⟩
      · rw [hline]
        exact (hst.sprintf_within hmsg).mpr (hroom hshown)
      · rw [hline]
        exact hst.wrapped
      · intro prio hcall
        have htext := (i2ErrLogSyslog_text hcall).1
        rw [hline, hst.sprintf_read (hroom hshown)] at htext
        cases htext
    · rw [if_neg hshown] at hline
      -- the line ends with the last piece
      refine ⟨?_, ?_, ?_⟩
      · rw [hline]
        exact hst.within
      · rw [hline]
        exact hst.wrapped
      · intro prio hcall
        obtain ⟨htext, hptr⟩ := i2ErrLogSyslog_text hcall
        rw [hline, hst.bufptr] at hptr
        rw [hline, hst.read (fun hnil => hptr (by rw [hnil]; rfl))] at htext
        cases htext

end Line

theorem syslogSafe_hello :
    ∃ ev, i2ErrLogVT (some (ascii "powstream")) ⟨ascii "io.c", ascii "Jan 1", 42⟩ 0 3 0
        (fun _ => ascii "hello") = .log_func ev ∧
      (i2ErrLogSyslog true ev ⟨none, 0, 0, 6, 7, 63⟩ false (ascii "12:00")).Safe := by
  have hev : i2ErrLogVT (some (ascii "powstream")) ⟨ascii "io.c", ascii "Jan 1", 42⟩ 0 3 0
      (fun _ => ascii "hello") = .log_func ⟨175, ascii "powstream", ascii "io.c", 42,
        ascii "Jan 1", 0, 3, ascii "hello"⟩ := rfl
  refine ⟨_, hev, (syslogSafe_iff hev _ _ _ _).mpr ⟨by decide, fun _ => ?_⟩⟩
  decide

/-- A message of 5000 characters, with nothing in front of it. -/
theorem not_syslogSafe_long :
    ∃ ev, i2ErrLogVT (some []) ⟨[], [], 0⟩ 0 3 0 (fun _ => List.replicate 5000 120) =
        .log_func ev ∧
      ¬(i2ErrLogSyslog true ev ⟨none, 0, 0, 6, 7, I2MSG⟩ false []).Safe := by
  obtain ⟨msg, hmsg⟩ : ∃ msg, List.replicate 5000 (120 : UInt8) = msg := ⟨_, rfl⟩
  have hlen : msg.length = 5000 := by rw [← hmsg, List.length_replicate]
  have hbuf : cstr (msg.take 10239) = msg := by
    rw [List.take_of_length_le (by omega), cstr, ← hmsg, List.takeWhile_replicate]
    rfl
  have hev : i2ErrLogVT (some []) ⟨[], [], 0⟩ 0 3 0 (fun _ => msg) =
      .log_func ⟨175, [], [], 0, [], 0, 3, msg⟩ := by
    rw [i2ErrLogVT, if_neg (by decide)]
    simp only [hbuf]
    rfl
  rw [hmsg]
  refine ⟨_, hev, fun hsafe => ?_⟩
  have hwithin := hsafe.within
  rw [i2ErrLogSyslog_line hev] at hwithin
  have hroom := (LineBuf.holds_start.sprintf_within (by show msg.length ≤ _; omega)).mp hwithin
  simp only [List.length_nil] at hroom
  omega

end I2util
