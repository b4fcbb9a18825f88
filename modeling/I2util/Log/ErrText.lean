import I2util.Addr.Text
import I2util.Library.Cells
import I2util.Log.Syslog

/-!
The error tables of a handle, and `esnprintf`, which writes the format of a message with
its `%M` and `%N` filled in.

The array around the cursor is a memory with a cell for every distance, so a write past its
end is seen where it happens.
-/

namespace I2util

abbrev CText := {s : List UInt8 // 0 ∉ s}

def CText.empty : CText := ⟨[], List.not_mem_nil⟩

/-- `num` is the number of messages. -/
structure ErrTable where
  start : UInt32
  err_list : List CText
  num_lt : err_list.length < 4294967296

abbrev TABLE_SIZE : ℕ := 10

/-- A handle, as far as messages are looked up in it. -/
structure ErrHandle where
  err_tab : List ErrTable
  err_tab_num : err_tab.length ≤ TABLE_SIZE - 1

/-- `strerror` is used when there is no handle. -/
def getError (strerror : ℤ → CText) (eh : Option ErrHandle) (error : ℤ) : CText :=
  if error < 0 then .empty
  else
    let errnum := error.toNat
    match eh with
    | none => strerror error
    | some eh =>
        (eh.err_tab.findSome? fun tab =>
          if errnum < tab.start.toNat then none
          else tab.err_list[errnum - tab.start.toNat]?).getD .empty

/-- The value returned, and the handle after the call. -/
def i2ErrList (eh : ErrHandle) (tab : ErrTable) : ℤ × ErrHandle :=
  if h : TABLE_SIZE - 1 ≤ eh.err_tab.length then (-1, eh)
  else (0, ⟨eh.err_tab ++ [tab],
    (List.length_append.trans_le (Nat.succ_le_of_lt (Nat.not_le.mp h)))⟩)

abbrev NUM_ERRORS : ℕ := 152

/-- The texts of `I2GetSysErrList`, when there was memory for them. -/
def i2GetSysErrList (strerror : ℤ → CText) : List CText :=
  (List.range NUM_ERRORS).map fun i : ℕ => strerror i

theorem i2GetSysErrList_length (strerror : ℤ → CText) :
    (i2GetSysErrList strerror).length = NUM_ERRORS := by
  rw [i2GetSysErrList, List.length_map, List.length_range]

/-- The messages of the system are the first table. -/
def addAnsiCErrors (strerror : ℤ → CText) : ErrHandle :=
  (i2ErrList ⟨[], by decide⟩ ⟨0, i2GetSysErrList strerror, by
    rw [i2GetSysErrList_length]
    decide⟩).2

/-- A handle that is made, when there is a log function and memory for it. -/
def i2ErrOpen (strerror : ℤ → CText) : ErrHandle := addAnsiCErrors strerror

inductive ErrHandle.Opened (strerror : ℤ → CText) : ErrHandle → Prop
  | new : ErrHandle.Opened strerror (i2ErrOpen strerror)
  | list {eh : ErrHandle} (h : ErrHandle.Opened strerror eh) (tab : ErrTable) :
      ErrHandle.Opened strerror (i2ErrList eh tab).2

/-- A table that is added changes no message that was found before it. -/
theorem getError_i2ErrList (strerror : ℤ → CText) (eh : ErrHandle) (tab : ErrTable) (error : ℤ)
    (hfound : getError strerror (some eh) error ≠ .empty) :
    getError strerror (some (i2ErrList eh tab).2) error = getError strerror (some eh) error := by
  by_cases hfull : TABLE_SIZE - 1 ≤ eh.err_tab.length
  · rw [i2ErrList, dif_pos hfull]
  · rw [i2ErrList, dif_neg hfull]
    simp only [getError, List.findSome?_append] at hfound ⊢
    split
    · rfl
    · rename_i hneg
      rw [if_neg hneg] at hfound
      cases hsome : eh.err_tab.findSome? fun tab =>
        if error.toNat < tab.start.toNat then none
        else tab.err_list[error.toNat - tab.start.toNat]? with
      | none =>
          rw [hsome] at hfound
          exact absurd rfl hfound
      | some text => rfl

/-- The system's messages come from the system's table. -/
theorem ErrHandle.Opened.system {strerror : ℤ → CText} {eh : ErrHandle} {error : ℤ}
    (h : ErrHandle.Opened strerror eh) (hneg : 0 ≤ error) (hlt : error < NUM_ERRORS) :
    getError strerror (some eh) error = strerror error := by
  have hfirst : ∃ tabs, eh.err_tab = (addAnsiCErrors strerror).err_tab ++ tabs := by
    induction h with
    | new => exact ⟨[], (List.append_nil _).symm⟩
    | @list eh _ tab ih =>
        obtain ⟨tabs, htabs⟩ := ih
        rw [i2ErrList]
        split
        · exact ⟨tabs, htabs⟩
        · refine ⟨tabs ++ [tab], ?_⟩
          show eh.err_tab ++ [tab] = _
          rw [htabs, List.append_assoc]
  obtain ⟨tabs, htabs⟩ := hfirst
  obtain ⟨n, rfl⟩ := Int.eq_ofNat_of_zero_le hneg
  have hn : n < NUM_ERRORS := Int.ofNat_lt.mp hlt
  have hentry : (i2GetSysErrList strerror)[n]? = some (strerror n) := by
    simp [i2GetSysErrList, hn]
  rw [getError, if_neg (Int.not_lt.mpr hneg)]
  simp [htabs, addAnsiCErrors, i2ErrList, hentry]

/-! ### `esnprintf` -/

/-- The array, the cursor `p2` as a distance from its start, and the remaining size. -/
structure EsnBuf where
  buf : ℤ → Option UInt8
  p2 : ℤ
  size_p2 : UInt64

namespace EsnBuf

def put (st : EsnBuf) (c : UInt8) : EsnBuf where
  buf := Cells.store st.buf st.p2 [c]
  p2 := st.p2 + 1
  size_p2 := st.size_p2 - 1

/-- `snprintf` of a text, and the steps behind it. -/
def print (st : EsnBuf) (text : List UInt8) : EsnBuf :=
  let printed := I2util.snprintf st.size_p2.toNat text
  let len := printed.1 - 1
  { buf := Cells.store st.buf st.p2 printed.2
    p2 := st.p2 + len + 1
    size_p2 := st.size_p2 - UInt64.ofInt len - 1 }

end EsnBuf

/-- What a call leaves: the array, whether the format was read past its NUL, and the value
returned. -/
structure EsnRun where
  buf : ℤ → Option UInt8
  overread : Bool
  ret : Option ℤ

/-- The loop. `msg` is the text that `get_error` returns for `code`. -/
def esnprintf.loop (msg : CText) (code : ℤ) (st : EsnBuf) : List UInt8 → EsnBuf × Bool
  | [] => (st, false)
  | c :: p1 =>
      if ¬1 < st.size_p2 then (st, false)
      else if c ≠ 37 then loop msg code (st.put c) p1
      else
        match p1 with
        -- the NUL is taken for the second character, and the next turn looks behind it
        | [] => ((st.put 37).put 0, true)
        | d :: p1 =>
            if d = 77 then loop msg code (st.print msg.val) p1
            else if d = 78 then loop msg code (st.print (decimalInt code)) p1
            else loop msg code ((st.put 37).put d) p1

/-- The value returned is the length as an `int`. -/
def esnprintf (strerror : ℤ → CText) (eh : Option ErrHandle) (size_buf : UInt64)
    (format : CText) (code : ℤ) : EsnRun :=
  let (st, overread) :=
    esnprintf.loop (getError strerror eh code) code ⟨fun _ => none, 0, size_buf⟩ format.val
  let buf := Cells.store st.buf st.p2 [0]
  { buf := buf
    overread := overread
    ret := (Cells.readUntil 0 buf 0 size_buf.toNat).map fun text =>
      (text.length : ℤ).bmod 4294967296 }

def EsnRun.text (run : EsnRun) (size_buf : UInt64) : Option (List UInt8) :=
  Cells.readUntil 0 run.buf 0 size_buf.toNat

/-- The format is read up to its NUL at most, every write is inside the array, and the array
holds a string. -/
structure EsnRun.Safe (run : EsnRun) (size_buf : UInt64) : Prop where
  format : run.overread = false
  within : Cells.Within size_buf.toNat run.buf
  text : (run.text size_buf).isSome

/-! ### The pieces of a format -/

inductive FormatPiece
  | char (c : UInt8)
  | message
  | number
  | pair (c : UInt8)
  | unpaired
  deriving DecidableEq

def formatPieces : List UInt8 → List FormatPiece
  | [] => []
  | c :: p1 =>
      if c ≠ 37 then .char c :: formatPieces p1
      else
        match p1 with
        | [] => [.unpaired]
        | d :: p1 =>
            (if d = 77 then .message else if d = 78 then .number else .pair d) :: formatPieces p1

namespace FormatPiece

def source : FormatPiece → List UInt8
  | char c => [c]
  | message => [37, 77]
  | number => [37, 78]
  | pair c => [37, c]
  | unpaired => [37]

def expand (msg : CText) (code : ℤ) : FormatPiece → List UInt8
  | char c => [c]
  | message => msg.val
  | number => decimalInt code
  | pair c => [37, c]
  | unpaired => [37]

/-- How far the cursor goes. A text whose length is no `int` takes it one back. -/
def advance (msg : CText) (code : ℤ) (p : FormatPiece) : ℤ :=
  let text := p.expand msg code
  if text.length ≤ 2147483647 then text.length else -1

end FormatPiece

/-- The format with every `%M` and `%N` replaced. -/
def expansion (msg : CText) (code : ℤ) (format : CText) : List UInt8 :=
  (formatPieces format.val).flatMap (FormatPiece.expand msg code)

/-- A piece that begins in front of the last byte is no unpaired `%` and leaves the cursor
inside the array. The cursor stands at `k`. -/
def PiecesFit (msg : CText) (code : ℤ) (size : ℕ) : ℤ → List FormatPiece → Prop
  | _, [] => True
  | k, p :: ps => k < size - 1 → p ≠ .unpaired ∧
      let k' := k + p.advance msg code
      0 ≤ k' ∧ k' ≤ size - 1 ∧ PiecesFit msg code size k' ps

theorem formatPieces_char {c : UInt8} (hc : c ≠ 37) (p1 : List UInt8) :
    formatPieces (c :: p1) = .char c :: formatPieces p1 := by
  rw [formatPieces.eq_def]
  exact if_pos hc

theorem formatPieces_pair (d : UInt8) (p1 : List UInt8) :
    formatPieces (37 :: d :: p1) =
      (if d = 77 then .message else if d = 78 then .number else .pair d) :: formatPieces p1 := by
  rw [formatPieces.eq_def]
  rfl

theorem formatPieces_source (format : List UInt8) :
    (formatPieces format).flatMap FormatPiece.source = format := by
  induction format using formatPieces.induct with
  | case1 => rfl
  | case2 c p1 hc ih =>
      rw [formatPieces_char hc, List.flatMap_cons, ih]
      rfl
  | case3 c hc =>
      obtain rfl : c = 37 := not_not.mp hc
      rfl
  | case4 c hc d p1 ih =>
      obtain rfl : c = 37 := not_not.mp hc
      rw [formatPieces_pair, List.flatMap_cons, ih]
      split_ifs with hM hN
      · rw [hM]
        rfl
      · rw [hN]
        rfl
      · rfl

theorem decimalInt_no_nul (n : ℤ) : 0 ∉ decimalInt n := by
  have hdigits : ∀ n : ℕ, 0 ∉ decimal n := fun n hzero =>
    absurd (List.all_eq_true.mp (decimal_digits n) 0 hzero) (by decide)
  rw [decimalInt]
  split
  · exact List.not_mem_cons_of_ne_of_not_mem (by decide) (hdigits _)
  · exact hdigits _

/-- A NUL would have come from the format. -/
theorem expansion_no_nul (msg : CText) (code : ℤ) (format : CText) :
    0 ∉ expansion msg code format := by
  intro hzero
  obtain ⟨p, hp, hpzero⟩ := List.mem_flatMap.mp hzero
  apply format.property
  rw [← formatPieces_source format.val]
  refine List.mem_flatMap.mpr ⟨p, hp, ?_⟩
  cases p with
  | char c => exact hpzero
  | message => exact absurd hpzero msg.property
  | number => exact absurd hpzero (decimalInt_no_nul code)
  | pair c => exact hpzero
  | unpaired => exact hpzero

namespace esnprintf

variable {msg : CText} {code : ℤ} {size : UInt64} {st : EsnBuf} {done : List UInt8}
  {p : FormatPiece} {ps : List FormatPiece}

/-! ### The loop, piece by piece -/

def turn (msg : CText) (code : ℤ) (st : EsnBuf) : FormatPiece → EsnBuf
  | .char c => st.put c
  | .message => st.print msg.val
  | .number => st.print (decimalInt code)
  | .pair c => (st.put 37).put c
  | .unpaired => (st.put 37).put 0

def turns (msg : CText) (code : ℤ) (st : EsnBuf) : List FormatPiece → EsnBuf × Bool
  | [] => (st, false)
  | p :: ps =>
      if ¬1 < st.size_p2 then (st, false)
      else if p = .unpaired then (turn msg code st p, true)
      else turns msg code (turn msg code st p) ps

theorem loop_char {c : UInt8} (hc : c ≠ 37) (p1 : List UInt8) :
    loop msg code st (c :: p1) =
      if ¬1 < st.size_p2 then (st, false) else loop msg code (st.put c) p1 := by
  rw [loop.eq_def]
  simp only [hc, ne_eq, not_false_eq_true, if_true]

theorem loop_pair (d : UInt8) (p1 : List UInt8) :
    loop msg code st (37 :: d :: p1) =
      if ¬1 < st.size_p2 then (st, false)
      else if d = 77 then loop msg code (st.print msg.val) p1
      else if d = 78 then loop msg code (st.print (decimalInt code)) p1
      else loop msg code ((st.put 37).put d) p1 := by
  rw [loop.eq_def]
  rfl

theorem loop_eq (st : EsnBuf) (format : List UInt8) :
    loop msg code st format = turns msg code st (formatPieces format) := by
  induction format using formatPieces.induct generalizing st with
  | case1 => rfl
  | case2 c p1 hc ih =>
      rw [loop_char hc, formatPieces_char hc, turns]
      simp only [ih, reduceCtorEq, if_false, turn]
  | case3 c hc =>
      obtain rfl : c = 37 := not_not.mp hc
      rfl
  | case4 c hc d p1 ih =>
      obtain rfl : c = 37 := not_not.mp hc
      rw [loop_pair, formatPieces_pair, turns]
      simp only [ih]
      split_ifs <;> first | rfl | contradiction

def stored (msg : CText) (code : ℤ) (room : ℕ) : FormatPiece → List UInt8
  | .char c => [c]
  | .pair c => [37, c]
  | .unpaired => [37, 0]
  | p => (snprintf room (p.expand msg code)).2

@[simp] theorem put_buf (c : UInt8) : (st.put c).buf = Cells.store st.buf st.p2 [c] := rfl

@[simp] theorem put_p2 (c : UInt8) : (st.put c).p2 = st.p2 + 1 := rfl

@[simp] theorem put_size_p2 (c : UInt8) : (st.put c).size_p2 = st.size_p2 - 1 := rfl

@[simp] theorem print_buf (text : List UInt8) :
    (st.print text).buf = Cells.store st.buf st.p2 (snprintf st.size_p2.toNat text).2 := rfl

@[simp] theorem print_p2 (text : List UInt8) :
    (st.print text).p2 = st.p2 + (snprintf st.size_p2.toNat text).1 := by
  show st.p2 + (_ - 1) + 1 = _
  omega

@[simp] theorem print_size_p2 (text : List UInt8) :
    (st.print text).size_p2 = st.size_p2 - UInt64.ofInt (snprintf st.size_p2.toNat text).1 := by
  have hone : ∀ rc : ℤ, UInt64.ofInt (rc - 1) = UInt64.ofInt rc - 1 := fun rc => by
    rw [Int.sub_eq_add_neg, UInt64.ofInt_add, UInt64.ofInt_neg, UInt64.ofInt_one]
    grind
  show st.size_p2 - UInt64.ofInt (_ - 1) - 1 = _
  rw [hone]
  grind

theorem snprintf_fst (room : ℕ) (text : List UInt8) :
    (snprintf room text).1 = if text.length ≤ 2147483647 then (text.length : ℤ) else -1 := by
  rw [snprintf]
  split <;> rfl

theorem turn_buf (st : EsnBuf) (p : FormatPiece) :
    (turn msg code st p).buf =
      Cells.store st.buf st.p2 (stored msg code st.size_p2.toNat p) := by
  cases p <;> rfl

theorem turn_p2 (hp : p ≠ .unpaired) :
    (turn msg code st p).p2 = st.p2 + p.advance msg code := by
  cases p with
  | char c => rfl
  | message => exact (print_p2 _).trans (by rw [snprintf_fst]; rfl)
  | number => exact (print_p2 _).trans (by rw [snprintf_fst]; rfl)
  | pair c => exact Int.add_assoc _ _ _
  | unpaired => exact absurd rfl hp

theorem turn_size_p2 (hp : p ≠ .unpaired) :
    (turn msg code st p).size_p2 = st.size_p2 - UInt64.ofInt (p.advance msg code) := by
  cases p with
  | char c => rfl
  | message => exact (print_size_p2 _).trans (by rw [snprintf_fst]; rfl)
  | number => exact (print_size_p2 _).trans (by rw [snprintf_fst]; rfl)
  | pair c =>
      show st.size_p2 - 1 - 1 = st.size_p2 - 2
      grind
  | unpaired => exact absurd rfl hp

def Counted (size : UInt64) (st : EsnBuf) : Prop := st.size_p2 = size - UInt64.ofInt st.p2

theorem Counted.turn (h : Counted size st) (hp : p ≠ .unpaired) :
    Counted size (turn msg code st p) := by
  rw [Counted] at h ⊢
  rw [turn_size_p2 hp, turn_p2 hp, h, UInt64.ofInt_add]
  grind

theorem Counted.toNat (h : Counted size st) (hpos : 0 ≤ st.p2) (hle : st.p2 ≤ size.toNat) :
    st.size_p2.toNat = size.toNat - st.p2.toNat := by
  have hlt := size.toNat_lt
  have hp2 : (UInt64.ofInt st.p2).toNat = st.p2.toNat := by
    rw [UInt64.ofInt, UInt64.toNat_ofNat_of_lt']
    · omega
    · simp only [UInt64.size]
      omega
  rw [h, UInt64.toNat_sub_of_le _ _ (by rw [UInt64.le_iff_toNat_le]; omega), hp2]

/-- The text `done` stands in the array, and the cursor behind it, in front of the end. -/
structure Holds (size : UInt64) (done : List UInt8) (st : EsnBuf) : Prop where
  within : Cells.Within size.toNat st.buf
  reads : Cells.Reads st.buf 0 done
  p2 : st.p2 = done.length
  room : done.length < size.toNat
  counted : Counted size st

theorem Holds.size_p2 (h : Holds size done st) :
    st.size_p2.toNat = size.toNat - done.length := by
  have hp2 := h.p2
  have hroom := h.room
  rw [h.counted.toNat (by omega) (by omega)]
  omega

theorem Holds.more_iff (h : Holds size done st) :
    1 < st.size_p2 ↔ done.length + 1 < size.toNat := by
  have hsize := h.size_p2
  rw [UInt64.lt_iff_toNat_lt, UInt64.toNat_one]
  omega

/-- A text that is printed whole stands in the array with a NUL behind it. -/
theorem expand_prefix_stored (hp : p ≠ .unpaired) {room : ℕ}
    (hint : (p.expand msg code).length ≤ 2147483647)
    (hroom : (p.expand msg code).length < room) :
    p.expand msg code <+: stored msg code room p := by
  have hprinted : ∀ text : List UInt8, text.length ≤ 2147483647 → text.length < room →
      text <+: (snprintf room text).2 := fun text hint hroom => by
    rw [snprintf, if_pos hint]
    simp only
    rw [if_neg (by omega), List.take_of_length_le (by omega)]
    exact List.prefix_append _ _
  cases p with
  | char c => exact List.prefix_rfl
  | message => exact hprinted _ hint hroom
  | number => exact hprinted _ hint hroom
  | pair c => exact List.prefix_rfl
  | unpaired => exact absurd rfl hp

theorem advance_of_stored_nil {room : UInt64} (hroom : 1 < room)
    (hnil : stored msg code room.toNat p = []) : p.advance msg code = -1 := by
  rw [UInt64.lt_iff_toNat_lt, UInt64.toNat_one] at hroom
  have hprinted : ∀ text : List UInt8, (snprintf room.toNat text).2 = [] →
      ¬text.length ≤ 2147483647 := fun text hnil hint => by
    rw [snprintf, if_pos hint] at hnil
    simp only at hnil
    rw [if_neg (by omega)] at hnil
    simp at hnil
  cases p with
  | message => exact if_neg (hprinted _ hnil)
  | number => exact if_neg (hprinted _ hnil)
  | char c => cases hnil
  | pair c => cases hnil
  | unpaired => cases hnil

theorem stored_length (hp : p ≠ .unpaired) {room : ℕ}
    (hroom : p.advance msg code < room) : (stored msg code room p).length ≤ room := by
  have hprinted : ∀ text : List UInt8, (snprintf room text).2.length ≤ room := fun text => by
    rw [snprintf]
    split_ifs
    · simp
    · simp only [List.length_append, List.length_take, List.length_singleton]
      omega
    · simp
  cases p with
  | char c =>
      have hone : (1 : ℤ) < room := hroom
      show 1 ≤ room
      omega
  | message => exact hprinted _
  | number => exact hprinted _
  | pair c =>
      have htwo : (2 : ℤ) < room := hroom
      show 2 ≤ room
      omega
  | unpaired => exact absurd rfl hp

def grown (msg : CText) (code : ℤ) (done : List UInt8) (p : FormatPiece) : List UInt8 :=
  if (p.expand msg code).length ≤ 2147483647 then done ++ p.expand msg code
  else done.dropLast

theorem Holds.after_turn (h : Holds size done st) (hp : p ≠ .unpaired)
    (hpos : 0 ≤ done.length + p.advance msg code)
    (hfits : done.length + p.advance msg code ≤ size.toNat - 1) :
    Holds size (grown msg code done p) (turn msg code st p) := by
  have hroom := h.room
  have hsize := h.size_p2
  have hp2 := h.p2
  have hlen : ((grown msg code done p).length : ℤ) = done.length + p.advance msg code := by
    simp only [grown, FormatPiece.advance] at hpos ⊢
    split at hpos
    · rename_i hint
      rw [if_pos hint, if_pos hint, List.length_append, Int.natCast_add]
    · rename_i hint
      rw [if_neg hint, if_neg hint, List.length_dropLast]
      omega
  constructor
  · rw [turn_buf]
    by_cases hnil : stored msg code st.size_p2.toNat p = []
    · rw [hnil]
      exact h.within
    · have hstored : (stored msg code st.size_p2.toNat p).length ≤ st.size_p2.toNat :=
        stored_length hp (by omega)
      exact (Cells.within_store hnil).mpr ⟨h.within, by omega, by omega⟩
  · rw [turn_buf, hp2]
    have hall := h.reads.append (stored msg code st.size_p2.toNat p)
    rw [Int.zero_add] at hall
    apply hall.of_prefix
    rw [grown]
    split
    · rename_i hint
      simp only [FormatPiece.advance, if_pos hint] at hfits
      exact (List.prefix_append_right_inj _).mpr (expand_prefix_stored hp hint (by omega))
    · exact (List.dropLast_prefix _).trans (List.prefix_append _ _)
  · rw [turn_p2 hp, hp2, hlen]
  · omega
  · exact h.counted.turn hp

/-! ### A cursor outside the array -/

def Outside (size : UInt64) (st : EsnBuf) : Prop :=
  (st.p2 < 0 ∨ size.toNat ≤ st.p2) ∧ Counted size st

/-- The format was read up to its NUL at most, and the array written inside, its end put. -/
def Inside (size : UInt64) (r : EsnBuf × Bool) : Prop :=
  r.2 = false ∧ Cells.Within size.toNat (Cells.store r.1.buf r.1.p2 [0])

theorem not_inside_of_not_within (h : ¬Cells.Within size.toNat st.buf) (ps : List FormatPiece) :
    ¬Inside size (turns msg code st ps) := by
  have hkept : ∀ (st : EsnBuf) (cs : List UInt8), ¬Cells.Within size.toNat st.buf →
      ¬Cells.Within size.toNat (Cells.store st.buf st.p2 cs) := fun st cs h hstored =>
    h fun j hj => hstored j ((Cells.store_ne_none_iff _ _ _ _).mpr (.inl hj))
  induction ps generalizing st with
  | nil => exact fun hin => hkept st _ h hin.2
  | cons p ps ih =>
      rw [turns]
      split_ifs
      · exact fun hin => Bool.noConfusion hin.1
      · apply ih
        rw [turn_buf]
        exact hkept st _ h
      · exact fun hin => hkept st _ h hin.2

/-- The end of the text is put outside too, unless something was before. -/
theorem not_inside_of_outside (h : Outside size st) (ps : List FormatPiece) :
    ¬Inside size (turns msg code st ps) := by
  have hstored : ∀ (st : EsnBuf) (cs : List UInt8), Outside size st → cs ≠ [] →
      ¬Cells.Within size.toNat (Cells.store st.buf st.p2 cs) := fun st cs h hcs hin => by
    have hfirst := ((Cells.within_store hcs).mp hin).2
    have hpos := List.length_pos_iff.mpr hcs
    have hout := h.1
    omega
  induction ps generalizing st with
  | nil => exact fun hin => hstored st _ h (by simp) hin.2
  | cons p ps ih =>
      rw [turns]
      split_ifs with hmore hp
      · exact fun hin => Bool.noConfusion hin.1
      · by_cases hnil : stored msg code st.size_p2.toNat p = []
        · -- only a text whose length is no `int` stores nothing: the cursor goes one back
          have hback := advance_of_stored_nil hmore hnil
          apply ih
          refine ⟨?_, h.2.turn hp⟩
          rw [turn_p2 hp, hback]
          have hout := h.1
          have hend : st.p2 ≠ size.toNat := fun hend => by
            have hnat := h.2.toNat (by omega) (by omega)
            rw [UInt64.lt_iff_toNat_lt] at hmore
            omega
          omega
        · apply not_inside_of_not_within
          rw [turn_buf]
          exact hstored st _ h hnil
      · exact fun hin => hstored st _ h (by simp) hin.2

/-! ### The whole loop -/

/-- The text in the array is a string when its end has been put. -/
theorem Holds.read (h : Holds size done st) :
    Cells.readUntil 0 (Cells.store st.buf st.p2 [0]) 0 size.toNat = some (cstr done) := by
  have hread := h.reads.append [0]
  rw [Int.zero_add, ← h.p2] at hread
  exact Cells.readUntil_of_reads hread h.room

theorem Holds.inside (h : Holds size done st) : Inside size (st, false) := by
  have hroom := h.room
  have hp2 := h.p2
  refine ⟨rfl, (Cells.within_store (by simp)).mpr ⟨h.within, ?_, ?_⟩⟩
  · simp only
    omega
  · simp only [List.length_singleton]
    omega

theorem Holds.of_fit (h : Holds size done st)
    (hfit : PiecesFit msg code size.toNat done.length ps) :
    ∃ all, (turns msg code st ps).2 = false ∧ Holds size all (turns msg code st ps).1 := by
  induction ps generalizing st done with
  | nil => exact ⟨done, rfl, h⟩
  | cons p ps ih =>
      rw [esnprintf.turns]
      by_cases hmore : 1 < st.size_p2
      · have hroom := h.more_iff.mp hmore
        obtain ⟨hp, hpos, hle, hrest⟩ := hfit (by omega)
        have hturn := h.after_turn hp hpos hle
        rw [if_neg (not_not.mpr hmore), if_neg hp]
        apply ih hturn
        rwa [← hturn.p2, turn_p2 hp, h.p2]
      · rw [if_pos hmore]
        exact ⟨done, rfl, h⟩

theorem Holds.fit_of_inside (h : Holds size done st) (hin : Inside size (turns msg code st ps)) :
    PiecesFit msg code size.toNat done.length ps := by
  induction ps generalizing st done with
  | nil => trivial
  | cons p ps ih =>
      intro hk
      rw [esnprintf.turns, if_neg (not_not.mpr (h.more_iff.mpr (by omega)))] at hin
      by_cases hp : p = .unpaired
      · rw [if_pos hp] at hin
        cases hin.1
      · rw [if_neg hp] at hin
        have hcursor : (turn msg code st p).p2 = st.p2 + p.advance msg code := turn_p2 hp
        rw [h.p2] at hcursor
        by_cases hkept : 0 ≤ done.length + p.advance msg code ∧
            done.length + p.advance msg code ≤ size.toNat - 1
        · have hturn := h.after_turn hp hkept.1 hkept.2
          refine ⟨hp, hkept.1, hkept.2, ?_⟩
          rw [← hcursor, hturn.p2]
          exact ih hturn hin
        · exact absurd hin (not_inside_of_outside ⟨by omega, h.counted.turn hp⟩ ps)

/-- Without an unpaired `%` a text that fits is written whole. -/
theorem Holds.all_pieces (h : Holds size done st) (hps : .unpaired ∉ ps)
    (hint : ∀ p ∈ ps, (p.expand msg code).length ≤ 2147483647)
    (hfits : done.length + (ps.flatMap (FormatPiece.expand msg code)).length < size.toNat) :
    (turns msg code st ps).2 = false ∧
      Holds size (done ++ ps.flatMap (FormatPiece.expand msg code)) (turns msg code st ps).1 := by
  induction ps generalizing st done with
  | nil =>
      rw [List.flatMap_nil, List.append_nil]
      exact ⟨rfl, h⟩
  | cons p ps ih =>
      obtain ⟨hp, hps⟩ := not_or.mp (List.mem_cons.not.mp hps)
      rw [List.flatMap_cons, List.length_append] at hfits
      rw [esnprintf.turns, List.flatMap_cons]
      by_cases hmore : 1 < st.size_p2
      · have hplen := hint p List.mem_cons_self
        have hadvance : p.advance msg code = (p.expand msg code).length := if_pos hplen
        have hturn : Holds size (grown msg code done p) (turn msg code st p) :=
          h.after_turn (Ne.symm hp) (by omega) (by omega)
        rw [grown, if_pos hplen] at hturn
        rw [if_neg (not_not.mpr hmore), if_neg (Ne.symm hp), ← List.append_assoc]
        refine ih hturn hps (fun q hq => hint q (List.mem_cons_of_mem p hq)) ?_
        rw [List.length_append]
        omega
      · -- the loop stops when the last byte is left, and what follows is empty
        have hroom := mt h.more_iff.mpr hmore
        have hnil : p.expand msg code ++ ps.flatMap (FormatPiece.expand msg code) = [] := by
          rw [← List.length_eq_zero_iff, List.length_append]
          omega
        rw [if_pos hmore, hnil, List.append_nil]
        exact ⟨rfl, h⟩

end esnprintf

section Call

variable (strerror : ℤ → CText) (eh : Option ErrHandle) {size_buf : UInt64} (format : CText)
  (code : ℤ)

theorem esnprintf.holds_start (hsize : 1 ≤ size_buf) :
    Holds size_buf [] ⟨fun _ => none, 0, size_buf⟩ where
  within := fun j hj => absurd rfl hj
  reads := Cells.reads_nil _ _
  p2 := rfl
  room := UInt64.le_iff_toNat_le.mp hsize
  counted := by
    show size_buf = size_buf - 0
    grind

theorem esnprintf_eq (size_buf : UInt64) :
    esnprintf strerror eh size_buf format code =
      let r := esnprintf.turns (getError strerror eh code) code ⟨fun _ => none, 0, size_buf⟩
        (formatPieces format.val)
      let buf := Cells.store r.1.buf r.1.p2 [0]
      { buf := buf
        overread := r.2
        ret := (Cells.readUntil 0 buf 0 size_buf.toNat).map fun text =>
          (text.length : ℤ).bmod 4294967296 } := by
  rw [esnprintf, esnprintf.loop_eq]

theorem esnprintf_safe_iff (hsize : 1 ≤ size_buf) :
    (esnprintf strerror eh size_buf format code).Safe size_buf ↔
      PiecesFit (getError strerror eh code) code size_buf.toNat 0 (formatPieces format.val) := by
  have hstart := esnprintf.holds_start hsize
  rw [esnprintf_eq]
  constructor
  · rintro ⟨hformat, hwithin, -⟩
    exact hstart.fit_of_inside ⟨hformat, hwithin⟩
  · intro hfit
    obtain ⟨all, hformat, hall⟩ := hstart.of_fit hfit
    exact ⟨hformat, hall.inside.2, by rw [EsnRun.text, hall.read]; rfl⟩

/-- The text is written whole if it fits and every length is an `int`. -/
theorem esnprintf_writes {strerror eh format code} (hpaired : .unpaired ∉ formatPieces format.val)
    (hfits : (expansion (getError strerror eh code) code format).length + 1 ≤ size_buf.toNat)
    (hint : ∀ p ∈ formatPieces format.val,
      (p.expand (getError strerror eh code) code).length ≤ 2147483647) :
    let run := esnprintf strerror eh size_buf format code
    let text := expansion (getError strerror eh code) code format
    run.text size_buf = some text ∧
      run.ret = some ((text.length : ℤ).bmod 4294967296) := by
  have hsize : 1 ≤ size_buf := UInt64.le_iff_toNat_le.mpr (Nat.le_of_add_left_le hfits)
  have hroom : 0 + (expansion (getError strerror eh code) code format).length <
      size_buf.toNat := by omega
  obtain ⟨-, hall⟩ := (esnprintf.holds_start hsize).all_pieces hpaired hint hroom
  have hread := hall.read
  change _ = some (cstr (expansion (getError strerror eh code) code format)) at hread
  rw [cstr_of_not_mem (expansion_no_nul _ _ _)] at hread
  rw [esnprintf_eq]
  exact ⟨hread, congrArg (Option.map _) hread⟩

end Call

/-- The NUL of the format is passed, and the array written behind its end. -/
theorem esnprintf_not_safe :
    let run := esnprintf (fun _ => .empty) none
    ¬(run 16 ⟨ascii "50%", by decide⟩ 3).Safe 16 ∧ ¬(run 4 ⟨ascii "ab%c", by decide⟩ 3).Safe 4 ∧
      ¬(run 4 ⟨ascii "ab%N", by decide⟩ 10).Safe 4 :=
  ⟨fun h => absurd h.format (by decide), fun h => absurd (h.within 4 (by decide)) (by decide),
    fun h => absurd (h.within 4 (by decide)) (by decide)⟩

theorem esnprintf_safe_iff_hundred :
    (esnprintf (fun _ => .empty) none 4 ⟨ascii "%N", by decide⟩ 100).Safe 4 ↔
      PiecesFit (getError (fun _ => .empty) none 100) 100 (UInt64.toNat 4) 0
        (formatPieces (ascii "%N")) :=
  esnprintf_safe_iff (fun _ => .empty) none ⟨ascii "%N", by decide⟩ 100 (by decide)

/-- A text that fits and whose length is an `int`. -/
theorem esnprintf_text (strerror : ℤ → CText) (eh : Option ErrHandle) (size_buf : UInt64)
    (format : CText) (code : ℤ) (hpaired : .unpaired ∉ formatPieces format.val)
    (hfits : (expansion (getError strerror eh code) code format).length + 1 ≤ size_buf.toNat)
    (hint : (expansion (getError strerror eh code) code format).length ≤ 2147483647) :
    let run := esnprintf strerror eh size_buf format code
    let text := expansion (getError strerror eh code) code format
    run.text size_buf = some text ∧ run.ret = some (text.length : ℤ) := by
  have hpieces : ∀ p ∈ formatPieces format.val,
      (p.expand (getError strerror eh code) code).length ≤ 2147483647 := fun p hp =>
    (List.sublist_flatten_of_mem (List.mem_map_of_mem hp)).length_le.trans hint
  obtain ⟨htext, hret⟩ := esnprintf_writes hpaired hfits hpieces
  refine ⟨htext, hret.trans (congrArg some ?_)⟩
  exact Int.bmod_eq_of_le (by omega) (by omega)

theorem esnprintf_text_hundred :
    let run := esnprintf (fun _ => .empty) none 16 ⟨ascii "%%M %N", by decide⟩ 100
    run.text 16 = some (ascii "%%M 100") ∧ run.ret = some 7 := by
  have hall : expansion .empty 100 ⟨ascii "%%M %N", by decide⟩ = ascii "%%M 100" := by decide
  have hrun := esnprintf_text (fun _ => .empty) none 16 ⟨ascii "%%M %N", by decide⟩ 100
    (by decide) (by decide) (by decide)
  obtain ⟨htext, hret⟩ := hrun
  refine ⟨htext.trans (congrArg some hall), hret.trans (congrArg some ?_)⟩
  exact congrArg (fun text : List UInt8 => (text.length : ℤ)) hall

theorem formatPieces_replicate {c : UInt8} (hc : c ≠ 37) (n : ℕ) :
    formatPieces (List.replicate n c) = List.replicate n (.char c) := by
  induction n with
  | zero => rfl
  | succ n ih => rw [List.replicate_succ, formatPieces_char hc, ih, List.replicate_succ]

def dots (n : ℕ) : CText :=
  ⟨List.replicate n 46, fun h => absurd (List.eq_of_mem_replicate h) (by decide)⟩

theorem expansion_dots (msg : CText) (code : ℤ) (n : ℕ) :
    expansion msg code (dots n) = List.replicate n 46 := by
  rw [expansion, dots, formatPieces_replicate (by decide), List.flatMap_replicate]
  induction n with
  | zero => rfl
  | succ n ih =>
      rw [List.replicate_succ, List.flatten_cons, ih, List.replicate_succ]
      rfl

/-- Dots are written one by one, and counted as an `int`. -/
theorem esnprintf_dots {size_buf : UInt64} {n : ℕ} (hfits : n + 1 ≤ size_buf.toNat) :
    let run := esnprintf (fun _ => .empty) none size_buf (dots n) 0
    .unpaired ∉ formatPieces (dots n).val ∧ (expansion .empty 0 (dots n)).length = n ∧
      run.ret = some ((n : ℤ).bmod 4294967296) := by
  have hlen : (expansion .empty 0 (dots n)).length = n := by
    rw [expansion_dots, List.length_replicate]
  have hpieces : formatPieces (dots n).val = List.replicate n (.char 46) :=
    formatPieces_replicate (by decide) n
  have hpaired : .unpaired ∉ formatPieces (dots n).val := by
    rw [hpieces]
    exact fun h => absurd (List.eq_of_mem_replicate h) nofun
  have hshort : ∀ p ∈ formatPieces (dots n).val,
      (p.expand .empty 0).length ≤ 2147483647 := fun p hp => by
    rw [hpieces] at hp
    rw [List.eq_of_mem_replicate hp]
    decide
  have hget : getError (fun _ => .empty) none 0 = .empty := rfl
  obtain ⟨-, hret⟩ := @esnprintf_writes size_buf (fun _ => .empty) none (dots n) 0 hpaired
    (by rwa [hget, hlen]) hshort
  rw [hget, hlen] at hret
  exact ⟨hpaired, hlen, hret⟩

/-- A length from 2³¹ on is returned as a negative number. -/
theorem esnprintf_length_not_int :
    let run := esnprintf (fun _ => .empty) none 4294967296 (dots 2147483648) 0
    .unpaired ∉ formatPieces (dots 2147483648).val ∧
      (expansion .empty 0 (dots 2147483648)).length = 2147483648 ∧
      run.ret = some (-2147483648) := by
  obtain ⟨hpaired, hlen, hret⟩ := @esnprintf_dots 4294967296 2147483648 (by decide)
  exact ⟨hpaired, hlen, hret.trans (congrArg some (by decide))⟩

end I2util
