import I2util.Io.Transfer
import I2util.Library.Dealt
import Mathlib.Logic.Function.Basic

/-!
`I2RandomBytes` of `random.c`, for any number of calls on one source.

The calls share the file of the device, so each `read` gets the bytes behind those that any
call has got before it.
-/

namespace I2util

/-- One call: its arguments, the loop of `I2Readn`, and the memory at `ptr`. -/
structure RandomCall where
  count : UInt32
  readn : Transfer
  ptr : List UInt8

namespace RandomCall

def signed (count : UInt32) : ℤ := (count.toNat : ℤ).bmod 4294967296

/-- What is returned when `I2Readn` has returned `nread`. -/
def result (count : UInt32) (nread : ℤ) : ℤ := if nread ≠ signed count then -1 else 0

def ret (c : RandomCall) : Option ℤ := c.readn.ret.map (result c.count)

def start (count : UInt32) (ptr : List UInt8) : RandomCall :=
  ⟨count, i2Readn.start count.toNat, ptr⟩

def turn (c : RandomCall) (nread : ℤ) (errno : SysErr) : RandomCall :=
  { c with readn := i2Readn.turn c.count.toNat c.readn nread errno }

end RandomCall

/-- The calls on one source, and who has got each byte of the device so far. -/
structure RandomSource (ι : Type*) where
  takers : List ι
  calls : ι → RandomCall

namespace RandomSource

variable {ι : Type*} [DecidableEq ι]

def start (count : ι → UInt32) (ptr : ι → List UInt8) : RandomSource ι :=
  ⟨[], fun i => .start (count i) (ptr i)⟩

def set (s : RandomSource ι) (i : ι) (c : RandomCall) : RandomSource ι :=
  { s with calls := Function.update s.calls i c }

def next (stream : ℕ → UInt8) (s : RandomSource ι) (k : ℕ) : List UInt8 :=
  (List.range' s.takers.length k).map stream

/-- What one `read` does. A device that has no bytes left, or is closed, gives the end of
the file or an error. -/
inductive Step (stream : ℕ → UInt8) (s : RandomSource ι) (i : ι) : RandomSource ι → Prop
  | read (k : ℕ) (errno : SysErr) (hcall : (s.calls i).readn.ret = none)
      (hk : 1 ≤ k ∧ k ≤ (s.calls i).readn.nleft) :
      Step stream s i
        ({ s with takers := s.takers ++ List.replicate k i }.set i
          { (s.calls i).turn k errno with
            ptr := Memory.patch (s.calls i).ptr (s.calls i).readn.ptr (s.next stream k) })
  | intr (hcall : (s.calls i).readn.ret = none) :
      Step stream s i (s.set i ((s.calls i).turn (-1) .EINTR))
  | eof (errno : SysErr) (hcall : (s.calls i).readn.ret = none) :
      Step stream s i (s.set i ((s.calls i).turn 0 errno))
  | fail (hcall : (s.calls i).readn.ret = none) :
      Step stream s i (s.set i ((s.calls i).turn (-1) .other))

def Next (stream : ℕ → UInt8) (s s' : RandomSource ι) : Prop := ∃ i, Step stream s i s'

/-! ### What a call has got -/

/-- What is in front of the pointer is the share of the call. `I2Readn` returns how much that
is, or that a `read` has failed. It does not read when nothing is left. -/
structure Filled (count : UInt32) (share : List UInt8) (c : RandomCall) : Prop where
  count_eq : c.count = count
  got : Transfer.Got c.ptr count.toNat share True { c.readn with ret := none }
  calling : c.readn.ret = none → 0 < c.readn.nleft
  returned : ∀ r, c.readn.ret = some r → r = c.readn.ptr ∨ r = -1 ∧ 0 < c.readn.nleft

variable {share cells : List UInt8} {count : UInt32} {c : RandomCall} {t : Transfer} {n : ℕ}
  {stream : ℕ → UInt8} {s s' : RandomSource ι} {i : ι}

theorem nleft_of_test (h : (i2Readni.test n t).ret = none) : 0 < (i2Readni.test n t).nleft := by
  rw [i2Readni.test, Transfer.test] at h ⊢
  split
  · assumption
  · rename_i hzero
    rw [if_neg hzero] at h
    cases h

theorem Filled.of_got (hcount : c.count = count) (h : c.readn.Got c.ptr count.toNat share True)
    (hcalling : c.readn.ret = none → 0 < c.readn.nleft) : Filled count share c where
  count_eq := hcount
  got := ⟨h.total, h.room, h.received, fun r hr => by cases hr⟩
  calling := hcalling
  returned := fun r hr => .inl (h.returned r hr).1

theorem Filled.live (h : Filled count share c) (hcall : c.readn.ret = none) :
    c.readn.Got c.ptr count.toNat share True :=
  ⟨h.got.total, h.got.room, h.got.received, fun r hr => by rw [hcall] at hr; cases hr⟩

theorem Filled.start {ptr : List UInt8} (hroom : count.toNat ≤ ptr.length) :
    Filled count [] (.start count ptr) :=
  .of_got rfl (.start hroom) nleft_of_test

theorem Filled.read (h : Filled count share c) (hcall : c.readn.ret = none) (errno : SysErr)
    (hcells : 1 ≤ cells.length ∧ cells.length ≤ c.readn.nleft) :
    Filled count (share ++ cells)
      { c.turn cells.length errno with ptr := Memory.patch c.ptr c.readn.ptr cells } := by
  have hgot := h.live hcall
  obtain rfl := h.count_eq
  rw [RandomCall.turn, i2Readn.turn_of_pos hcells.1]
  exact .of_got rfl (hgot.advance hcall hcells.2) nleft_of_test

theorem Filled.intr (h : Filled count share c) (hcall : c.readn.ret = none) :
    Filled count share (c.turn (-1) .EINTR) := by
  have hgot := h.live hcall
  obtain rfl := h.count_eq
  rw [RandomCall.turn, i2Readn.turn_intr]
  exact .of_got rfl (hgot.intr hcall) nleft_of_test

theorem Filled.eof (h : Filled count share c) (hcall : c.readn.ret = none) (errno : SysErr) :
    Filled count share (c.turn 0 errno) := by
  have hgot := (h.live hcall).eof
  obtain rfl := h.count_eq
  rw [RandomCall.turn, i2Readn.turn_eof]
  exact .of_got rfl hgot fun hnone => by cases hnone

theorem Filled.fail (h : Filled count share c) (hcall : c.readn.ret = none) :
    Filled count share (c.turn (-1) .other) := by
  have hturn : i2Readn.turn c.count.toNat c.readn (-1) .other =
      { c.readn with ret := some (-1) } := by
    rw [i2Readn.turn, i2Readni.turn, if_pos (by decide), if_neg (fun h => by cases h.1)]
  rw [RandomCall.turn, hturn]
  exact ⟨h.count_eq, h.got, fun hnone => (by cases hnone),
    fun r hr => .inr ⟨(Option.some.inj hr).symm, h.calling hcall⟩⟩

omit [DecidableEq ι] in
theorem signed_of_lt (h : count.toNat < 2147483648) : RandomCall.signed count = count.toNat := by
  apply Int.bmod_eq_of_le <;> omega

omit [DecidableEq ι] in
theorem signed_of_le (h : 2147483648 ≤ count.toNat) :
    RandomCall.signed count = count.toNat - 4294967296 := by
  have hlt : count.toNat < 4294967296 := count.toNat_lt
  have hsub := Int.sub_bmod_right count.toNat 4294967296
  exact hsub.symm.trans (Int.bmod_eq_of_le (by omega) (by omega))

omit [DecidableEq ι] in
theorem result_eq_zero_iff {nread : ℤ} :
    RandomCall.result count nread = 0 ↔ nread = RandomCall.signed count := by
  rw [RandomCall.result]
  split_ifs with h
  · simp [h]
  · simpa using not_not.mp h

theorem Filled.length (h : Filled count share c) :
    share.length = c.readn.ptr ∧ c.readn.ptr + c.readn.nleft = count.toNat := by
  have htotal : c.readn.ptr + c.readn.nleft = count.toNat := h.got.total
  have hroom := h.got.room
  have hshare : share = c.ptr.take c.readn.ptr := h.got.received
  refine ⟨?_, htotal⟩
  rw [hshare]
  exact List.length_take_of_le (by omega)

/-- What the call returns, from what it has got. A count from 2³¹ on is negative as an `int`,
and 2³² - 1 is the error of `I2Readn`. -/
theorem Filled.ret (h : Filled count share c) {r : ℤ} (hr : c.ret = some r) :
    (r = 0 ∨ r = -1) ∧
      (count.toNat < 2147483648 → (r = 0 ↔ share.length = count.toNat)) ∧
      (2147483648 ≤ count.toNat →
        (r = 0 ↔ count.toNat = 4294967295 ∧ c.readn.ret = some (-1))) := by
  obtain ⟨nread, hnread, rfl⟩ := Option.map_eq_some_iff.mp hr
  obtain ⟨hshare, htotal⟩ := h.length
  have hlt : count.toNat < 4294967296 := count.toNat_lt
  refine ⟨?_, ?_⟩
  · rw [RandomCall.result]
    split
    · exact .inr rfl
    · exact .inl rfl
  rw [h.count_eq, result_eq_zero_iff, hshare, hnread, Option.some.injEq]
  refine ⟨fun hsmall => ?_, fun hlarge => ?_⟩
  · rw [signed_of_lt hsmall]
    rcases h.returned nread hnread with rfl | ⟨rfl, hleft⟩ <;> omega
  · rw [signed_of_le hlarge]
    rcases h.returned nread hnread with rfl | ⟨rfl, hleft⟩ <;> omega

/-! ### Every run -/

def Shared (stream : ℕ → UInt8) (count : ι → UInt32) (s : RandomSource ι) : Prop :=
  ∀ i, Filled (count i) (Dealt.share stream s.takers i) (s.calls i)

variable {count : ι → UInt32}

/-- A step that takes nothing from the device. -/
theorem Shared.set (h : Shared stream count s) {c : RandomCall}
    (hc : Filled (count i) (Dealt.share stream s.takers i) c) :
    Shared stream count (s.set i c) := by
  intro j
  by_cases hji : j = i
  · subst hji
    simpa [RandomSource.set] using hc
  · simpa [RandomSource.set, hji] using h j

theorem Shared.step (h : Shared stream count s) (hstep : Step stream s i s') :
    Shared stream count s' := by
  cases hstep with
  | read k errno hcall hk =>
      have hlen : (s.next stream k).length = k := by
        rw [next, List.length_map, List.length_range']
      have hgot := (h i).read hcall errno (by rwa [hlen] : 1 ≤ (s.next stream k).length ∧ _)
      intro j
      by_cases hji : j = i
      · subst hji
        rw [hlen] at hgot
        simpa [RandomSource.set, next, Dealt.share_append_self] using hgot
      · simpa [RandomSource.set, hji, Dealt.share_append_of_ne stream s.takers k (Ne.symm hji)]
          using h j
  | intr hcall => exact h.set ((h i).intr hcall)
  | eof errno hcall => exact h.set ((h i).eof hcall errno)
  | fail hcall => exact h.set ((h i).fail hcall)

theorem Shared.run {ptr : ι → List UInt8} (hroom : ∀ i, (count i).toNat ≤ (ptr i).length)
    (hrun : Relation.ReflTransGen (Next stream) (start count ptr) s) : Shared stream count s := by
  induction hrun with
  | refl => exact fun i => .start (hroom i)
  | tail _ hnext ih =>
      obtain ⟨i, hstep⟩ := hnext
      exact ih.step hstep

/-- Every byte that the device has given is in the memory of exactly one call, in order. A
call with a count below 2³¹ returns 0 when it has got all of its bytes, and only then. With a
count from 2³¹ on it returns 0 only for 2³² - 1, when a `read` has failed. -/
theorem randomBytes_shared {ptr : ι → List UInt8} (hroom : ∀ i, (count i).toNat ≤ (ptr i).length)
    (hrun : Relation.ReflTransGen (Next stream) (start count ptr) s) :
    (∀ p < s.takers.length, ∃! i, p ∈ Dealt.positions s.takers i) ∧
      ∀ i, (Dealt.positions s.takers i).Pairwise (· < ·) ∧
        let share := (Dealt.positions s.takers i).map stream
        share.length ≤ (count i).toNat ∧ (s.calls i).ptr.take share.length = share ∧
        ∀ r, (s.calls i).ret = some r → (r = 0 ∨ r = -1) ∧
          ((count i).toNat < 2147483648 → (r = 0 ↔ share.length = (count i).toNat)) ∧
          (2147483648 ≤ (count i).toNat →
            (r = 0 ↔ (count i).toNat = 4294967295 ∧ (s.calls i).readn.ret = some (-1))) := by
  have h := Shared.run hroom hrun
  refine ⟨fun p hp => Dealt.exists_unique_taker hp, fun i => ⟨Dealt.positions_sorted _ _, ?_⟩⟩
  obtain ⟨hlen, htotal⟩ := (h i).length
  have hgot : Dealt.share stream s.takers i = (s.calls i).ptr.take (s.calls i).readn.ptr :=
    (h i).got.received
  refine ⟨?_, ?_, fun r hr => (h i).ret hr⟩
  · show (Dealt.share stream s.takers i).length ≤ _
    omega
  · show (s.calls i).ptr.take (Dealt.share stream s.takers i).length = _
    rw [hlen, ← hgot]
    rfl

/-- Two calls, for two bytes and for one. The first is interrupted, and gets the bytes before
and behind the one of the second. -/
theorem randomBytes_shared_two :
    let count : Bool → UInt32 := fun i => if i then 2 else 1
    ∃ s, Relation.ReflTransGen (Next UInt8.ofNat) (start count fun _ => [0, 0]) s ∧
      (s.calls true).ret = some 0 ∧ (s.calls true).ptr = [0, 2] ∧
      (∃! i, 1 ∈ Dealt.positions s.takers i) := by
  have hrun : Relation.ReflTransGen (Next UInt8.ofNat)
      (start (fun i : Bool => if i then 2 else 1) fun _ => [0, 0]) _ :=
    .head ⟨true, .read 1 .other rfl ⟨by decide, by decide⟩⟩ <|
    .head ⟨true, .intr rfl⟩ <|
    .head ⟨false, .read 1 .other rfl ⟨by decide, by decide⟩⟩ <|
    .head ⟨true, .read 1 .other rfl ⟨by decide, by decide⟩⟩ .refl
  obtain ⟨honce, -⟩ := randomBytes_shared (by decide) hrun
  have hzero : RandomCall.result 2 (UInt32.toNat 2) = 0 :=
    result_eq_zero_iff.mpr (signed_of_lt (by decide)).symm
  exact ⟨_, hrun, congrArg some hzero, rfl, honce 1 (by decide)⟩

end RandomSource

end I2util
