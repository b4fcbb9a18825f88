import Mathlib.Logic.Relation
import I2util.Conf.Text
import I2util.Library.Fifo
import I2util.Library.Memory

/-!
`I2Readn` and `I2Writen` of `io.c`, one system call at a time.

Each loop has a pointer into its buffer and a number of bytes that are left. What a
system call returns is decided by the channel and by the signals that arrive.
-/

namespace I2util

inductive SysErr
  | EINTR | other
  deriving DecidableEq

/-- The locals of a loop: `ptr` as an offset from `vptr`, and `nleft`. `ret` is what the
function has returned. -/
structure Transfer where
  ptr : ℕ
  nleft : ℕ
  ret : Option ℤ

/-- `nleft -= k; ptr += k`. -/
def Transfer.advance (t : Transfer) (k : ℕ) : Transfer :=
  { t with ptr := t.ptr + k, nleft := t.nleft - k }

/-- The test of a loop, with what is returned behind it. -/
def Transfer.test (t : Transfer) (ret : ℤ) : Transfer :=
  if 0 < t.nleft then t else { t with ret := some ret }

def i2Readni.test (n : ℕ) (t : Transfer) : Transfer := t.test ((n - t.nleft : ℕ) : ℤ)

def i2Readni.turn (n : ℕ) (retn_on_intr : ℤ) (t : Transfer) (nread : ℤ) (errno : SysErr) :
    Transfer :=
  if nread < 0 then
    if errno = .EINTR ∧ retn_on_intr = 0 then i2Readni.test n (t.advance 0)
    else { t with ret := some (-1) }
  else if nread = 0 then { t with ret := some ((n - t.nleft : ℕ) : ℤ) }
  else i2Readni.test n (t.advance nread.toNat)

def i2Readn.start (n : ℕ) : Transfer := i2Readni.test n ⟨0, n, none⟩

/-- `I2Readn` never returns because of an interrupt. -/
def i2Readn.turn (n : ℕ) : Transfer → ℤ → SysErr → Transfer := i2Readni.turn n 0

def i2Writeni.test (n : ℕ) (t : Transfer) : Transfer := t.test n

def i2Writeni.turn (n : ℕ) (retn_on_intr : ℤ) (t : Transfer) (nwritten : ℤ) (errno : SysErr) :
    Transfer :=
  if nwritten ≤ 0 then
    if errno = .EINTR ∧ retn_on_intr = 0 then i2Writeni.test n (t.advance 0)
    else { t with ret := some (-1) }
  else i2Writeni.test n (t.advance nwritten.toNat)

def i2Writen.start (n : ℕ) : Transfer := i2Writeni.test n ⟨0, n, none⟩

def i2Writen.turn (n : ℕ) : Transfer → ℤ → SysErr → Transfer := i2Writeni.turn n 0

/-! ### A writer and a reader -/

/-- `buf` is the memory that the reader reads to. -/
structure Pipe where
  writer : Transfer
  closed : Bool
  channel : Fifo UInt8
  reader : Transfer
  buf : List UInt8

namespace Pipe

def start (n m : ℕ) (buf : List UInt8) : Pipe :=
  ⟨i2Writen.start n, false, .empty, i2Readn.start m, buf⟩

/-- The system calls of a writer of the `n` bytes at `vptr` and of a reader of `m` bytes,
in any order. The writer can close the channel at any time. -/
inductive Step (vptr : List UInt8) (n m : ℕ) : Pipe → Pipe → Prop
  | write (l : Pipe) (k : ℕ) (errno : SysErr) (hcall : l.writer.ret = none)
      (hopen : l.closed = false) (hk : 1 ≤ k ∧ k ≤ l.writer.nleft) :
      Step vptr n m l
        { l with
          channel := l.channel.push ((vptr.drop l.writer.ptr).take k)
          writer := i2Writen.turn n l.writer k errno }
  | writeIntr (l : Pipe) (hcall : l.writer.ret = none) (hopen : l.closed = false) :
      Step vptr n m l { l with writer := i2Writen.turn n l.writer (-1) .EINTR }
  | close (l : Pipe) : Step vptr n m l { l with closed := true }
  | read (l : Pipe) (k : ℕ) (errno : SysErr) (hcall : l.reader.ret = none)
      (hk : 1 ≤ k ∧ k ≤ l.reader.nleft) (hqueue : k ≤ l.channel.queue.length) :
      Step vptr n m l
        { l with
          channel := l.channel.pop k
          buf := Memory.patch l.buf l.reader.ptr (l.channel.queue.take k)
          reader := i2Readn.turn m l.reader k errno }
  | readIntr (l : Pipe) (hcall : l.reader.ret = none) :
      Step vptr n m l { l with reader := i2Readn.turn m l.reader (-1) .EINTR }
  | eof (l : Pipe) (errno : SysErr) (hcall : l.reader.ret = none) (hclosed : l.closed = true)
      (hempty : l.channel.queue = []) :
      Step vptr n m l { l with reader := i2Readn.turn m l.reader 0 errno }

end Pipe

/-! ### One turn -/

section Turn

variable {n k : ℕ} {t : Transfer} {errno : SysErr}

theorem i2Writen.turn_of_pos (hk : 1 ≤ k) :
    i2Writen.turn n t k errno = i2Writeni.test n (t.advance k) := by
  have hpos : ¬(k : ℤ) ≤ 0 := by omega
  rw [i2Writen.turn, i2Writeni.turn, if_neg hpos, Int.toNat_natCast]

theorem i2Writen.turn_intr : i2Writen.turn n t (-1) .EINTR = i2Writeni.test n t := by
  rw [i2Writen.turn, i2Writeni.turn, if_pos (by decide), if_pos ⟨rfl, rfl⟩]
  rfl

theorem i2Readn.turn_of_pos (hk : 1 ≤ k) :
    i2Readn.turn n t k errno = i2Readni.test n (t.advance k) := by
  have hneg : ¬(k : ℤ) < 0 := by omega
  have hzero : ¬(k : ℤ) = 0 := by omega
  rw [i2Readn.turn, i2Readni.turn, if_neg hneg, if_neg hzero, Int.toNat_natCast]

theorem i2Readn.turn_intr : i2Readn.turn n t (-1) .EINTR = i2Readni.test n t := by
  rw [i2Readn.turn, i2Readni.turn, if_pos (by decide), if_pos ⟨rfl, rfl⟩]
  rfl

theorem i2Readn.turn_eof :
    i2Readn.turn n t 0 errno = { t with ret := some ((n - t.nleft : ℕ) : ℤ) } := by
  rw [i2Readn.turn, i2Readni.turn, if_neg (by decide), if_pos rfl]

/-- The test moves nothing. A function returns when nothing is left. -/
theorem Transfer.test_eq (hret : t.ret = none) (ret : ℤ) :
    (t.test ret).ptr = t.ptr ∧ (t.test ret).nleft = t.nleft ∧
      ∀ r, (t.test ret).ret = some r → r = ret ∧ t.nleft = 0 := by
  rw [Transfer.test]
  split
  · refine ⟨rfl, rfl, fun r hr => ?_⟩
    rw [hret] at hr
    cases hr
  · exact ⟨rfl, rfl, fun r hr => ⟨(Option.some.inj hr).symm, by omega⟩⟩

end Turn

/-! ### What a party has done -/

/-- What is before the pointer of the writer has been sent. -/
structure Transfer.Sent (vptr : List UInt8) (n : ℕ) (sent : List UInt8) (t : Transfer) : Prop where
  total : t.ptr + t.nleft = n
  sent : sent = vptr.take t.ptr
  returned : ∀ r, t.ret = some r → r = n ∧ t.nleft = 0

/-- What is before the pointer of the reader has been received. It returns before all is
read at the end of the file only. -/
structure Transfer.Got (buf : List UInt8) (m : ℕ) (received : List UInt8) (ended : Prop)
    (t : Transfer) : Prop where
  total : t.ptr + t.nleft = m
  room : m ≤ buf.length
  received : received = buf.take t.ptr
  returned : ∀ r, t.ret = some r → r = t.ptr ∧ (t.nleft = 0 ∨ ended)

section Parties

variable {vptr buf sent received cells : List UInt8} {n m k : ℕ} {t : Transfer}
  {ended ended' : Prop}

open Transfer

/-- `k` bytes more have been sent. -/
theorem Transfer.Sent.advance (h : Sent vptr n sent t) (hcall : t.ret = none) (hk : k ≤ t.nleft) :
    Sent vptr n (sent ++ (vptr.drop t.ptr).take k) (i2Writeni.test n (t.advance k)) := by
  obtain ⟨hptr, hnleft, hret⟩ := @Transfer.test_eq (t.advance k) hcall n
  change (i2Writeni.test n (t.advance k)).ptr = t.ptr + k at hptr
  change (i2Writeni.test n (t.advance k)).nleft = t.nleft - k at hnleft
  have htotal := h.total
  refine ⟨by omega, ?_, fun r hr => ?_⟩
  · rw [hptr, h.sent, List.take_add]
  · obtain ⟨rfl, hzero⟩ := hret r hr
    exact ⟨rfl, hnleft.trans hzero⟩

theorem Transfer.Sent.intr (h : Sent vptr n sent t) (hcall : t.ret = none) :
    Sent vptr n sent (i2Writeni.test n t) := by
  have hstep := @Sent.advance vptr sent n 0 t h hcall (Nat.zero_le _)
  rw [List.take_zero, List.append_nil] at hstep
  exact hstep

theorem Transfer.Sent.start (vptr : List UInt8) (n : ℕ) : Sent vptr n [] (i2Writen.start n) :=
  Sent.intr ⟨Nat.zero_add n, rfl, fun _ hr => by cases hr⟩ rfl

/-- The cells that have been received are stored. -/
theorem Transfer.Got.advance (h : Got buf m received ended t) (hcall : t.ret = none)
    (hcells : cells.length ≤ t.nleft) :
    Got (Memory.patch buf t.ptr cells) m (received ++ cells) ended'
      (i2Readni.test m (t.advance cells.length)) := by
  obtain ⟨hptr, hnleft, hret⟩ := @Transfer.test_eq (t.advance cells.length) hcall
    ((m - (t.advance cells.length).nleft : ℕ) : ℤ)
  change (i2Readni.test m (t.advance cells.length)).ptr = t.ptr + cells.length at hptr
  change (i2Readni.test m (t.advance cells.length)).nleft = t.nleft - cells.length at hnleft
  have htotal := h.total
  have hroom : t.ptr + cells.length ≤ buf.length := by
    have hbuf := h.room
    omega
  refine ⟨by omega, by rw [Memory.length_patch hroom]; exact h.room, ?_, fun r hr => ?_⟩
  · have hbefore : (buf.take t.ptr ++ cells).length = t.ptr + cells.length := by
      rw [List.length_append, List.length_take_of_le (by omega)]
    rw [hptr, h.received, Memory.patch, ← List.append_assoc, List.take_left' hbefore]
  · obtain ⟨rfl, hzero⟩ := hret r hr
    change t.nleft - cells.length = 0 at hzero
    refine ⟨?_, .inl (hnleft.trans hzero)⟩
    show ((m - (t.nleft - cells.length) : ℕ) : ℤ) = _
    rw [hptr]
    omega

theorem Transfer.Got.intr (h : Got buf m received ended t) (hcall : t.ret = none) :
    Got buf m received ended' (i2Readni.test m t) := by
  have hstep := @Got.advance buf received [] m t ended ended' h hcall (Nat.zero_le _)
  have hsame : Memory.patch buf t.ptr [] = buf := List.take_append_drop ..
  rw [hsame, List.append_nil] at hstep
  exact hstep

theorem Transfer.Got.start (hm : m ≤ buf.length) : Got buf m [] ended (i2Readn.start m) :=
  @Got.intr buf [] m ⟨0, m, none⟩ ended ended ⟨Nat.zero_add m, hm, rfl, fun _ hr => by cases hr⟩ rfl

theorem Transfer.Got.eof (h : Got buf m received ended t) :
    Got buf m received True { t with ret := some ((m - t.nleft : ℕ) : ℤ) } := by
  refine ⟨h.total, h.room, h.received, fun r hr => ⟨?_, .inr trivial⟩⟩
  obtain rfl := Option.some.inj hr
  have htotal := h.total
  show ((m - t.nleft : ℕ) : ℤ) = (t.ptr : ℤ)
  omega

theorem Transfer.Got.mono (h : Got buf m received ended t) (himp : ended → ended') :
    Got buf m received ended' t :=
  ⟨h.total, h.room, h.received,
    fun r hr => ⟨(h.returned r hr).1, (h.returned r hr).2.imp_right himp⟩⟩

end Parties

/-! ### Every run -/

namespace Pipe

structure Carries (vptr : List UInt8) (n m : ℕ) (l : Pipe) : Prop where
  writer : l.writer.Sent vptr n l.channel.sent
  reader : l.reader.Got l.buf m l.channel.received (l.closed = true ∧ l.channel.queue = [])

variable {vptr buf : List UInt8} {n m : ℕ} {l l' : Pipe}

theorem Carries.step (h : Carries vptr n m l) (hstep : Step vptr n m l l') :
    Carries vptr n m l' := by
  cases hstep with
  | write k errno hcall hopen hk =>
      refine ⟨?_, h.reader.mono fun hend => ?_⟩
      · simp only [Fifo.push_sent, i2Writen.turn_of_pos hk.1]
        exact h.writer.advance hcall hk.2
      · -- the channel is still open
        rw [hopen] at hend
        cases hend.1
  | writeIntr hcall hopen =>
      refine ⟨?_, h.reader⟩
      rw [i2Writen.turn_intr]
      exact h.writer.intr hcall
  | close => exact ⟨h.writer, h.reader.mono fun hend => ⟨rfl, hend.2⟩⟩
  | read k errno hcall hk hqueue =>
      have hcells : (l.channel.queue.take k).length = k := List.length_take_of_le hqueue
      have hturn : i2Readn.turn m l.reader k errno =
          i2Readni.test m (l.reader.advance (l.channel.queue.take k).length) := by
        rw [i2Readn.turn_of_pos hk.1, hcells]
      refine ⟨h.writer, ?_⟩
      simp only [Fifo.pop_received, hturn]
      exact h.reader.advance hcall (hcells.symm ▸ hk.2)
  | readIntr hcall =>
      refine ⟨h.writer, ?_⟩
      rw [i2Readn.turn_intr]
      exact h.reader.intr hcall
  | eof errno hcall hclosed hempty =>
      refine ⟨h.writer, ?_⟩
      rw [i2Readn.turn_eof]
      exact h.reader.eof.mono fun _ => ⟨hclosed, hempty⟩

theorem Carries.run (hm : m ≤ buf.length)
    (hrun : Relation.ReflTransGen (Step vptr n m) (start n m buf) l) : Carries vptr n m l := by
  induction hrun with
  | refl => exact ⟨.start vptr n, .start hm⟩
  | tail _ hstep ih => exact ih.step hstep

/-- In every run no byte is lost, repeated or moved: what the reader has stored, what is in
the channel and what the writer has not sent yet make up the message. A reader that returns
has stored all that it wanted, or all that was sent before the channel was closed. -/
theorem delivered (hm : m ≤ buf.length)
    (hrun : Relation.ReflTransGen (Step vptr n m) (start n m buf) l) :
    l.buf.take l.reader.ptr ++ l.channel.queue ++ (vptr.take n).drop l.writer.ptr =
        vptr.take n ∧
      ∀ r, l.reader.ret = some r → 0 ≤ r ∧ r ≤ m ∧
        (r = m → l.buf.take m = (vptr.take n).take m) ∧
        (r < m → l.closed = true ∧ l.buf.take r.toNat = l.channel.sent) := by
  have h := Carries.run hm hrun
  have hsent : l.channel.sent = (vptr.take n).take l.writer.ptr := by
    have htotal := h.writer.total
    rw [h.writer.sent, List.take_take, Nat.min_eq_left (by omega)]
  refine ⟨?_, fun r hr => ?_⟩
  · rw [← h.reader.received, ← l.channel.inOrder, hsent, List.take_append_drop]
  · obtain ⟨rfl, hend⟩ := h.reader.returned r hr
    have htotal := h.reader.total
    refine ⟨by omega, by omega, fun hall => ?_, fun hshort => ?_⟩
    · obtain rfl : l.reader.ptr = m := by omega
      have hlen : l.channel.received.length = l.reader.ptr := by
        rw [h.reader.received]
        exact List.length_take_of_le h.reader.room
      have hpart : l.channel.received <+: vptr.take n := by
        have htake : l.channel.sent <+: vptr.take n := by
          rw [hsent]
          exact List.take_prefix _ _
        exact l.channel.received_prefix.trans htake
      rw [← h.reader.received, List.prefix_iff_eq_take.mp hpart, hlen]
    · rcases hend with hzero | ⟨hclosed, hempty⟩
      · omega
      · refine ⟨hclosed, ?_⟩
        rw [Int.toNat_natCast, ← h.reader.received]
        exact Fifo.received_eq_sent hempty

theorem delivered_abc :
    ∃ l, Relation.ReflTransGen (Step (ascii "abc") 3 3) (start 3 3 [0, 0, 0]) l ∧
      l.reader.ret = some 3 ∧ l.buf.take 3 = (ascii "abc").take 3 := by
  have hrun : Relation.ReflTransGen (Step (ascii "abc") 3 3) (start 3 3 [0, 0, 0]) _ :=
    .head (.write _ 2 .other rfl rfl ⟨by decide, by decide⟩) <|
    .head (.writeIntr _ rfl rfl) <|
    .head (.read _ 1 .other rfl ⟨by decide, by decide⟩ (by decide)) <|
    .head (.readIntr _ rfl) <|
    .head (.write _ 1 .other rfl rfl ⟨by decide, by decide⟩) <|
    .head (.read _ 2 .other rfl ⟨by decide, by decide⟩ (by decide)) .refl
  obtain ⟨-, hreturned⟩ := delivered (by decide) hrun
  exact ⟨_, hrun, rfl, (hreturned 3 rfl).2.2.1 rfl⟩

end Pipe

end I2util
