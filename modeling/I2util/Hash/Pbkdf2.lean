import I2util.Library.BigEndian
import I2util.Library.Loop
import I2util.Library.Memory

/-!
`pbkdf2.c`: a key derived from a password.

The pseudorandom function is a parameter. It reads its text before it writes the
digest, which may be to the same place. An access outside a buffer, a division by zero
and a loop that does not end have no result.
-/

namespace I2util

/-- The intermediate buffer, with the number of calls of the pseudorandom function.
Nothing is computed from that number. -/
structure TmpBuff (n : ℕ) where
  buffer : List.Vector UInt8 n
  calls : ℕ

variable {prf_hlen : UInt32} {n m : ℕ}
variable (prf : List UInt8 → List UInt8 → List.Vector UInt8 prf_hlen.toNat)
variable (pw : List UInt8) (pwlen : UInt32) (salt : List UInt8) (saltlen count : UInt32)

/-- `(*prf)(pw,pwlen,buffer,txtlen,buffer)`. -/
def TmpBuff.call (tmp : TmpBuff n) (txtlen : UInt32) : Option (TmpBuff n) :=
  (Memory.read pw 0 pwlen.toNat).bind fun key =>
    (Memory.read tmp.buffer.1 0 txtlen.toNat).bind fun txt =>
      (Memory.write tmp.buffer 0 (prf key.1 txt.1).1).map fun buffer => ⟨buffer, tmp.calls + 1⟩

/-- `u[k] ^= buffer[k]`, where `u` points to the byte `out` of its block. -/
def xorByte (buffer : List.Vector UInt8 n) (out : UInt32) (k : UInt32) (u : List.Vector UInt8 m) :
    Option (List.Vector UInt8 m) :=
  u.1[out.toNat + k.toNat]?.bind fun a =>
    buffer.1[k.toNat]?.bind fun b => Memory.write u (out.toNat + k.toNat) [a ^^^ b]

/-- The inner `for` loop. -/
def F.xor (prf_hlen : UInt32) (buffer : List.Vector UInt8 n) (out : UInt32) :
    UInt32 × List.Vector UInt8 m →
      (UInt32 × List.Vector UInt8 m) ⊕ Option (List.Vector UInt8 m)
  | (k, u) =>
      if k < prf_hlen then
        match xorByte buffer out k u with
        | some u => .inl (k + 1, u)
        | none => .inr none
      else .inr (some u)

/-- The body of the outer `for` loop. -/
def F.next (tmp : TmpBuff n) (u : List.Vector UInt8 m) (out : UInt32) :
    Option (TmpBuff n × List.Vector UInt8 m) :=
  (tmp.call prf pw pwlen prf_hlen).bind fun tmp =>
    (Loop.iterate (F.xor prf_hlen tmp.buffer out) (prf_hlen.toNat + 1) (0, u)).join.map fun u =>
      (tmp, u)

/-- The outer `for` loop. -/
def F.iterates (out : UInt32) :
    UInt32 × TmpBuff n × List.Vector UInt8 m →
      (UInt32 × TmpBuff n × List.Vector UInt8 m) ⊕ Option (TmpBuff n × List.Vector UInt8 m)
  | (j, tmp, u) =>
      if j ≤ count then
        match F.next prf pw pwlen tmp u out with
        | some (tmp, u) => .inl (j + 1, tmp, u)
        | none => .inr none
      else .inr (some (tmp, u))

/-- `ival`: the index of a block, most significant byte first. -/
def ival (i : UInt32) : List UInt8 :=
  [((i >>> 24) &&& 0xff).toUInt8, ((i >>> 16) &&& 0xff).toUInt8, ((i >>> 8) &&& 0xff).toUInt8,
    (i &&& 0xff).toUInt8]

/-- `F`, with a number of turns for its outer loop. -/
def F.within (turns : ℕ) (i : UInt32) (tmp : TmpBuff n) (u : List.Vector UInt8 m) (out : UInt32) :
    Option (TmpBuff n × List.Vector UInt8 m) :=
  (Memory.copy tmp.buffer 0 salt 0 saltlen.toNat).bind fun buffer =>
    (Memory.copy buffer saltlen.toNat (ival i) 0 4).bind fun buffer =>
      (TmpBuff.call prf pw pwlen ⟨buffer, tmp.calls⟩ (saltlen + 4)).bind fun tmp =>
        (Memory.copy u out.toNat tmp.buffer.1 0 prf_hlen.toNat).bind fun u =>
          (Loop.iterate (F.iterates prf pw pwlen count out) turns (2, tmp, u)).join

/-- The outer loop is given as many turns as there are iterates. -/
def F (i : UInt32) (tmp : TmpBuff n) (u : List.Vector UInt8 m) (out : UInt32) :
    Option (TmpBuff n × List.Vector UInt8 m) :=
  F.within prf pw pwlen salt saltlen count (count.toNat + 1) i tmp u out

theorem F_eq_within (i : UInt32) (tmp : TmpBuff n) (u : List.Vector UInt8 m) (out : UInt32) :
    F prf pw pwlen salt saltlen count i tmp u out =
      F.within prf pw pwlen salt saltlen count (count.toNat + 1) i tmp u out := rfl

def i2pbkdf2.blocks (l : UInt32) :
    UInt32 × TmpBuff n × List.Vector UInt8 m →
      (UInt32 × TmpBuff n × List.Vector UInt8 m) ⊕ Option (TmpBuff n × List.Vector UInt8 m)
  | (i, tmp, dk_ret) =>
      if i < l then
        match F prf pw pwlen salt saltlen count (i + 1) tmp dk_ret (i * prf_hlen) with
        | some (tmp, dk_ret) => .inl (i + 1, tmp, dk_ret)
        | none => .inr none
      else .inr (some (tmp, dk_ret))

/-- The last incomplete block goes through `outbuff`. -/
def i2pbkdf2.last (l r : UInt32) (tmpbuff : TmpBuff n)
    (outbuff : List.Vector UInt8 prf_hlen.toNat) (dk_ret : List.Vector UInt8 m) :
    Option (List.Vector UInt8 m) :=
  if r ≠ 0 then
    (F prf pw pwlen salt saltlen count (l + 1) tmpbuff outbuff 0).bind fun (_, outbuff) =>
      Memory.copy dk_ret (l * prf_hlen).toNat outbuff.1 0 r.toNat
  else some dk_ret

/-- Steps 2 to 4, with the two buffers allocated. -/
def i2pbkdf2.derive (tmpbuff : TmpBuff n) (outbuff : List.Vector UInt8 prf_hlen.toNat)
    (dklen : UInt32) (dk_ret : List.Vector UInt8 m) : Option (List.Vector UInt8 m) :=
  if prf_hlen = 0 then none
  else
    let l := dklen / prf_hlen
    let r := dklen % prf_hlen
    (Loop.iterate (i2pbkdf2.blocks prf pw pwlen salt saltlen count l) (l.toNat + 1)
        (0, tmpbuff, dk_ret)).join.bind fun (tmpbuff, dk_ret) =>
      i2pbkdf2.last prf pw pwlen salt saltlen count l r tmpbuff outbuff dk_ret

def MAX (a b : UInt32) : UInt32 := if b < a then a else b

def ENOMEM : ℤ := 12

/-- What is left behind: the return value, `errno` and the memory of `dk_ret`. -/
structure DerivedKey (n : ℕ) where
  ret : ℤ
  errno : ℤ
  dk_ret : List.Vector UInt8 n

/-- `tmpbuffOk` and `outbuffOk` tell whether the allocations succeed. -/
def i2pbkdf2 (tmpbuffOk outbuffOk : Bool) (errno : ℤ) (dklen : UInt32)
    (dk_ret : List.Vector UInt8 m) : Option (DerivedKey m) :=
  if tmpbuffOk && outbuffOk then
    let tmpbuff : TmpBuff (MAX saltlen prf_hlen + 4).toNat := ⟨List.Vector.replicate _ 0, 0⟩
    let outbuff : List.Vector UInt8 prf_hlen.toNat := List.Vector.replicate _ 0
    (i2pbkdf2.derive prf pw pwlen salt saltlen count tmpbuff outbuff dklen dk_ret).map fun dk_ret =>
      ⟨0, errno, dk_ret⟩
  else some ⟨-1, ENOMEM, dk_ret⟩

end I2util
