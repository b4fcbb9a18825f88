import I2util.Library.Loop
import I2util.Library.Memory
import I2util.Library.Words

/-!
`md5.c`: the incremental MD5.

An `unsigned long` has 64 bits here. Both ways of reading the words of a block are
modelled: in place, on the machines that can, and byte by byte into `ctx->block`. An
access outside a buffer has no result.
-/

namespace I2util

attribute [local instance] Words.neZero_four Words.neZero_sixteen

abbrev Md5Block := List.Vector UInt8 64
abbrev Md5Digest := List.Vector UInt8 16

/-- `a`, `b`, `c` and `d`. -/
abbrev Md5State := List.Vector UInt32 4

structure I2MD5Ctx where
  lo : UInt32
  hi : UInt32
  state : Md5State
  buffer : Md5Block
  block : List.Vector UInt32 16

namespace Md5

/-! ### The steps of a block -/

inductive BasicFunction
  | F
  | G
  | H
  | I
  deriving DecidableEq

def BasicFunction.apply : BasicFunction → UInt32 → UInt32 → UInt32 → UInt32
  | .F, x, y, z => z ^^^ (x &&& (y ^^^ z))
  | .G, x, y, z => y ^^^ (z &&& (x ^^^ y))
  | .H, x, y, z => x ^^^ y ^^^ z
  | .I, x, y, z => y ^^^ (x ||| ~~~z)

abbrev Variable := Fin 4

def a : Variable := 0
def b : Variable := 1
def c : Variable := 2
def d : Variable := 3

inductive Word
  | SET (n : Fin 16)
  | GET (n : Fin 16)
  deriving DecidableEq

structure Step where
  STEP ::
  f : BasicFunction
  a : Variable
  b : Variable
  c : Variable
  d : Variable
  x : Word
  t : UInt32
  s : UInt32
  deriving DecidableEq

open Word Step

def round1 : List Step := [
  STEP .F a b c d (SET 0) 0xd76aa478 7,
  STEP .F d a b c (SET 1) 0xe8c7b756 12,
  STEP .F c d a b (SET 2) 0x242070db 17,
  STEP .F b c d a (SET 3) 0xc1bdceee 22,
  STEP .F a b c d (SET 4) 0xf57c0faf 7,
  STEP .F d a b c (SET 5) 0x4787c62a 12,
  STEP .F c d a b (SET 6) 0xa8304613 17,
  STEP .F b c d a (SET 7) 0xfd469501 22,
  STEP .F a b c d (SET 8) 0x698098d8 7,
  STEP .F d a b c (SET 9) 0x8b44f7af 12,
  STEP .F c d a b (SET 10) 0xffff5bb1 17,
  STEP .F b c d a (SET 11) 0x895cd7be 22,
  STEP .F a b c d (SET 12) 0x6b901122 7,
  STEP .F d a b c (SET 13) 0xfd987193 12,
  STEP .F c d a b (SET 14) 0xa679438e 17,
  STEP .F b c d a (SET 15) 0x49b40821 22]

def round2 : List Step := [
  STEP .G a b c d (GET 1) 0xf61e2562 5,
  STEP .G d a b c (GET 6) 0xc040b340 9,
  STEP .G c d a b (GET 11) 0x265e5a51 14,
  STEP .G b c d a (GET 0) 0xe9b6c7aa 20,
  STEP .G a b c d (GET 5) 0xd62f105d 5,
  STEP .G d a b c (GET 10) 0x02441453 9,
  STEP .G c d a b (GET 15) 0xd8a1e681 14,
  STEP .G b c d a (GET 4) 0xe7d3fbc8 20,
  STEP .G a b c d (GET 9) 0x21e1cde6 5,
  STEP .G d a b c (GET 14) 0xc33707d6 9,
  STEP .G c d a b (GET 3) 0xf4d50d87 14,
  STEP .G b c d a (GET 8) 0x455a14ed 20,
  STEP .G a b c d (GET 13) 0xa9e3e905 5,
  STEP .G d a b c (GET 2) 0xfcefa3f8 9,
  STEP .G c d a b (GET 7) 0x676f02d9 14,
  STEP .G b c d a (GET 12) 0x8d2a4c8a 20]

def round3 : List Step := [
  STEP .H a b c d (GET 5) 0xfffa3942 4,
  STEP .H d a b c (GET 8) 0x8771f681 11,
  STEP .H c d a b (GET 11) 0x6d9d6122 16,
  STEP .H b c d a (GET 14) 0xfde5380c 23,
  STEP .H a b c d (GET 1) 0xa4beea44 4,
  STEP .H d a b c (GET 4) 0x4bdecfa9 11,
  STEP .H c d a b (GET 7) 0xf6bb4b60 16,
  STEP .H b c d a (GET 10) 0xbebfbc70 23,
  STEP .H a b c d (GET 13) 0x289b7ec6 4,
  STEP .H d a b c (GET 0) 0xeaa127fa 11,
  STEP .H c d a b (GET 3) 0xd4ef3085 16,
  STEP .H b c d a (GET 6) 0x04881d05 23,
  STEP .H a b c d (GET 9) 0xd9d4d039 4,
  STEP .H d a b c (GET 12) 0xe6db99e5 11,
  STEP .H c d a b (GET 15) 0x1fa27cf8 16,
  STEP .H b c d a (GET 2) 0xc4ac5665 23]

def round4 : List Step := [
  STEP .I a b c d (GET 0) 0xf4292244 6,
  STEP .I d a b c (GET 7) 0x432aff97 10,
  STEP .I c d a b (GET 14) 0xab9423a7 15,
  STEP .I b c d a (GET 5) 0xfc93a039 21,
  STEP .I a b c d (GET 12) 0x655b59c3 6,
  STEP .I d a b c (GET 3) 0x8f0ccc92 10,
  STEP .I c d a b (GET 10) 0xffeff47d 15,
  STEP .I b c d a (GET 1) 0x85845dd1 21,
  STEP .I a b c d (GET 8) 0x6fa87e4f 6,
  STEP .I d a b c (GET 15) 0xfe2ce6e0 10,
  STEP .I c d a b (GET 6) 0xa3014314 15,
  STEP .I b c d a (GET 13) 0x4e0811a1 21,
  STEP .I a b c d (GET 4) 0xf7537e82 6,
  STEP .I d a b c (GET 11) 0xbd3af235 10,
  STEP .I c d a b (GET 2) 0x2ad7d2bb 15,
  STEP .I b c d a (GET 9) 0xeb86d391 21]

def steps : List Step := round1 ++ round2 ++ round3 ++ round4

inductive Access
  | unaligned
  | portable
  deriving DecidableEq

/-- The variables of `body` in a turn, and `ctx->block`. -/
structure Vars where
  state : Md5State
  block : List.Vector UInt32 16

/-- `SET(n)` where it puts the bytes together. -/
def assemble (ptr : Md5Block) (n : Fin 16) : UInt32 :=
  let byte (k : Fin 4) : UInt32 := (ptr.get ⟨n.1 * 4 + k.1, by omega⟩).toUInt32
  byte 0 ||| (byte 1 <<< 8) ||| (byte 2 <<< 16) ||| (byte 3 <<< 24)

/-- The word that a step adds, and what is left in `ctx->block`. The word that is read in
place is the one that a little-endian machine has there. -/
def Word.eval (access : Access) (ptr : Md5Block) (block : List.Vector UInt32 16) :
    Word → UInt32 × List.Vector UInt32 16
  | .SET n =>
      match access with
      | .unaligned => (Words.ofLE ((ptr.1.drop (n.1 * 4)).take 4), block)
      | .portable => (assemble ptr n, block.set n (assemble ptr n))
  | .GET n =>
      match access with
      | .unaligned => (Words.ofLE ((ptr.1.drop (n.1 * 4)).take 4), block)
      | .portable => (block.get n, block)

def Step.run (access : Access) (ptr : Md5Block) (v : Vars) (step : Step) : Vars :=
  let (x, block) := step.x.eval access ptr v.block
  let a := v.state.get step.a +
    (step.f.apply (v.state.get step.b) (v.state.get step.c) (v.state.get step.d) + x + step.t)
  let a := (a <<< step.s) ||| ((a &&& 0xffffffff) >>> (32 - step.s))
  ⟨v.state.set step.a (a + v.state.get step.b), block⟩

def turn (access : Access) (v : Vars) (ptr : Md5Block) : Vars :=
  let saved := v.state
  let v := steps.foldl (Step.run access ptr) v
  { v with state := List.Vector.map₂ (· + ·) v.state saved }

/-- The loop, with the number of bytes in front of `ptr`. -/
def body.blocks (access : Access) (data : List UInt8) :
    ℕ × Vars × UInt64 → (ℕ × Vars × UInt64) ⊕ Option (ℕ × Vars)
  | (ptr, v, size) =>
      match Memory.read data ptr 64 with
      | some block =>
          let v := turn access v block
          let ptr := ptr + 64
          let size := size - 64
          if size ≠ 0 then .inl (ptr, v, size) else .inr (some (ptr, v))
      | none => .inr none

/-- The context, and the number of bytes in front of the pointer that is returned. -/
def body (access : Access) (ctx : I2MD5Ctx) (data : List UInt8) (ptr : ℕ) (size : UInt64) :
    Option (ℕ × I2MD5Ctx) :=
  (Loop.iterate (body.blocks access data) (data.length + 1)
      (ptr, ⟨ctx.state, ctx.block⟩, size)).join.map fun (ptr, v) =>
    (ptr, { ctx with state := v.state, block := v.block })

end Md5

def i2MD5Init (ctx : I2MD5Ctx) : I2MD5Ctx :=
  { ctx with
    state := ⟨[0x67452301, 0xefcdab89, 0x98badcfe, 0x10325476], rfl⟩
    lo := 0
    hi := 0 }

/-- `ctx->lo` and `ctx->hi` after `size` more bytes. -/
def I2MD5Ctx.count (ctx : I2MD5Ctx) (size : UInt64) : I2MD5Ctx :=
  let saved_lo := ctx.lo
  let lo := ((saved_lo.toUInt64 + size) &&& 0x1fffffff).toUInt32
  let hi := if lo < saved_lo then ctx.hi + 1 else ctx.hi
  { ctx with lo := lo, hi := (hi.toUInt64 + (size >>> 29)).toUInt32 }

/-- `memcpy(&ctx->buffer[used], data, n)`. -/
def I2MD5Ctx.copy (ctx : I2MD5Ctx) (used : UInt64) (data : List UInt8) (ptr : ℕ) (n : UInt64) :
    Option I2MD5Ctx :=
  (Memory.copy ctx.buffer used.toNat data ptr n.toNat).map fun buffer => { ctx with buffer := buffer }

/-- What `I2MD5Update` does with the data behind the block in the buffer, from `ptr` on. -/
def i2MD5Update.rest (access : Md5.Access) (ctx : I2MD5Ctx) (data : List UInt8) (ptr : ℕ)
    (size : UInt64) : Option I2MD5Ctx :=
  if 64 ≤ size then
    (Md5.body access ctx data ptr (size &&& ~~~0x3f)).bind fun (ptr, ctx) =>
      ctx.copy 0 data ptr (size &&& 0x3f)
  else ctx.copy 0 data ptr size

def i2MD5Update (access : Md5.Access) (ctx : I2MD5Ctx) (data : List UInt8) (size : UInt64) :
    Option I2MD5Ctx :=
  let used := (ctx.lo &&& 0x3f).toUInt64
  let ctx := ctx.count size
  if used ≠ 0 then
    let free := 64 - used
    if size < free then ctx.copy used data 0 size
    else
      (ctx.copy used data 0 free).bind fun ctx =>
        (Md5.body access ctx ctx.buffer.1 0 64).bind fun (_, ctx) =>
          i2MD5Update.rest access ctx data free.toNat (size - free)
  else i2MD5Update.rest access ctx data 0 size

/-- `memset(&ctx->buffer[used], 0, n)`. -/
def I2MD5Ctx.clear (ctx : I2MD5Ctx) (used n : UInt64) : Option I2MD5Ctx :=
  (Memory.write ctx.buffer used.toNat (List.replicate n.toNat 0)).map fun buffer =>
    { ctx with buffer := buffer }

/-- The bytes of a word, the least significant one first. -/
def wordBytes (w : UInt32) : List UInt8 :=
  [w.toUInt8, (w >>> 8).toUInt8, (w >>> 16).toUInt8, (w >>> 24).toUInt8]

def I2MD5Ctx.zero : I2MD5Ctx :=
  ⟨0, 0, List.Vector.replicate 4 0, List.Vector.replicate 64 0, List.Vector.replicate 16 0⟩

def resultBytes (state : Md5State) : Md5Digest :=
  ⟨wordBytes (state.get 0) ++ wordBytes (state.get 1) ++ wordBytes (state.get 2) ++
    wordBytes (state.get 3), rfl⟩

/-- What `I2MD5Final` does where the length does not fit into the block: the context, `used`
and `free`. -/
def i2MD5Final.room (access : Md5.Access) (ctx : I2MD5Ctx) (used free : UInt64) :
    Option (I2MD5Ctx × UInt64 × UInt64) :=
  if free < 8 then
    (ctx.clear used free).bind fun ctx =>
      (Md5.body access ctx ctx.buffer.1 0 64).map fun (_, ctx) => (ctx, 0, 64)
  else some (ctx, used, free)

/-- The digest and the context left behind. -/
def i2MD5Final (access : Md5.Access) (ctx : I2MD5Ctx) : Option (Md5Digest × I2MD5Ctx) :=
  let used := (ctx.lo &&& 0x3f).toUInt64
  (Memory.write ctx.buffer used.toNat [0x80]).bind fun buffer =>
    (i2MD5Final.room access { ctx with buffer := buffer } (used + 1) (64 - (used + 1))).bind
      fun (ctx, used, free) =>
        (ctx.clear used (free - 8)).bind fun ctx =>
          let ctx := { ctx with lo := ctx.lo <<< 3 }
          (Memory.write ctx.buffer 56 (wordBytes ctx.lo ++ wordBytes ctx.hi)).bind fun buffer =>
            (Md5.body access { ctx with buffer := buffer } buffer.1 0 64).map fun (_, ctx) =>
              (resultBytes ctx.state, I2MD5Ctx.zero)

end I2util
