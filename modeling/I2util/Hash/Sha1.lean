import I2util.Library.Blocks
import I2util.Library.Loop
import I2util.Library.Memory

/-!
`sha1.c`: the incremental SHA-1.

The compression function `sha1_transform` is a parameter of the functions that
collect the message. The context keeps the blocks that were passed to it, which the
source does not; nothing is computed from them. An access outside a buffer and a
loop that does not end have no result.
-/

namespace I2util

abbrev I2SHA1_BLOCK_SIZE : ℕ := 64
abbrev I2SHA1_DIGEST_SIZE : ℕ := 20

abbrev Block := List.Vector UInt8 I2SHA1_BLOCK_SIZE
abbrev Digest := List.Vector UInt8 I2SHA1_DIGEST_SIZE
abbrev Sha1State := List.Vector UInt32 5

/-- The context. `count` is `count[1]` and `count[0]`, the message length in bits. -/
structure I2Sha1Context where
  state : Sha1State
  count1 : UInt32
  count0 : UInt32
  buffer : Block
  passed : List Block

variable (sha1_transform : Sha1State → Block → Sha1State)

namespace I2Sha1Context

def transform (sha1 : I2Sha1Context) (block : Block) : I2Sha1Context :=
  { sha1 with state := sha1_transform sha1.state block, passed := sha1.passed ++ [block] }

def countBits (sha1 : I2Sha1Context) (len : UInt32) : I2Sha1Context :=
  let j := sha1.count0
  let count0 := sha1.count0 + (len <<< 3)
  { sha1 with
    count0 := count0
    count1 := if count0 < j then sha1.count1 + ((len >>> 29) + 1) else sha1.count1 }

/-- `memcpy(&sha1->buffer[j], &data[i], n)`. -/
def copy (sha1 : I2Sha1Context) (j : UInt32) (data : List UInt8) (i n : UInt32) :
    Option I2Sha1Context :=
  (Memory.read data i.toNat n.toNat).bind fun src =>
    (Memory.write sha1.buffer j.toNat src.toList).map fun buffer => { sha1 with buffer := buffer }

/-- `memset(sha1, 0, sizeof(*sha1))`. -/
def wipe (sha1 : I2Sha1Context) : I2Sha1Context where
  state := List.Vector.replicate 5 0
  count1 := 0
  count0 := 0
  buffer := List.Vector.replicate I2SHA1_BLOCK_SIZE 0
  passed := sha1.passed

end I2Sha1Context

def i2Sha1Init (sha1 : I2Sha1Context) : I2Sha1Context :=
  { sha1 with
    state := ⟨[0x67452301, 0xEFCDAB89, 0x98BADCFE, 0x10325476, 0xC3D2E1F0], rfl⟩
    count0 := 0
    count1 := 0 }

/-- The `for` loop over the complete blocks in `data`, from `i` on. -/
def i2Sha1Append.blocks (data : List UInt8) (len : UInt32) :
    UInt32 × I2Sha1Context → (UInt32 × I2Sha1Context) ⊕ Option (UInt32 × I2Sha1Context)
  | (i, sha1) =>
      if i + 63 < len then
        match Memory.read data i.toNat I2SHA1_BLOCK_SIZE with
        | some block => .inl (i + 64, sha1.transform sha1_transform block)
        | none => .inr none
      else .inr (some (i, sha1))

/-- `data` is the memory that the pointer points to. -/
def i2Sha1Append (sha1 : I2Sha1Context) (data : List UInt8) (len : UInt32) :
    Option I2Sha1Context :=
  if len ≤ 0 then some sha1
  else
    let j := (sha1.count0 >>> 3) &&& 63
    let sha1 := sha1.countBits len
    if 63 < j + len then
      let i := 64 - j
      (sha1.copy j data 0 i).bind fun sha1 =>
        (Loop.iterate (i2Sha1Append.blocks sha1_transform data len) (data.length + 1)
            (i, sha1.transform sha1_transform sha1.buffer)).join.bind fun (i, sha1) =>
          sha1.copy 0 data i (len - i)
    else sha1.copy j data 0 len

/-- `finalcount`: the count of bits, most significant byte first. -/
def finalcount (sha1 : I2Sha1Context) : List UInt8 :=
  (List.range 8).map fun i =>
    (((if 4 ≤ i then sha1.count0 else sha1.count1) >>>
      UInt32.ofNat ((3 - (i &&& 3)) * 8)) &&& 255).toUInt8

/-- The `while` loop that appends zeros. -/
def i2Sha1Finish.pad (sha1 : I2Sha1Context) : I2Sha1Context ⊕ Option I2Sha1Context :=
  if sha1.count0 &&& 504 ≠ 448 then
    match i2Sha1Append sha1_transform sha1 [0] 1 with
    | some sha1 => .inl sha1
    | none => .inr none
  else .inr (some sha1)

/-- The bytes of the state, most significant byte of each word first. -/
def digestBytes (state : Sha1State) : Digest :=
  List.Vector.ofFn fun i =>
    ((state.get ⟨i.1 / 4, Nat.div_lt_of_lt_mul i.2⟩ >>>
      UInt32.ofNat ((3 - (i.1 &&& 3)) * 8)) &&& 255).toUInt8

/-- The digest and the context left behind. The loop is given as many turns as there
are bytes in a block. -/
def i2Sha1Finish (sha1 : I2Sha1Context) : Option (Digest × I2Sha1Context) :=
  let count := finalcount sha1
  (i2Sha1Append sha1_transform sha1 [0o200] 1).bind fun sha1 =>
    (Loop.iterate (i2Sha1Finish.pad sha1_transform) I2SHA1_BLOCK_SIZE sha1).join.bind fun sha1 =>
      (i2Sha1Append sha1_transform sha1 count 8).map fun sha1 =>
        (digestBytes sha1.state, sha1.wipe)

def I2Sha1Context.zero : I2Sha1Context :=
  ⟨List.Vector.replicate 5 0, 0, 0, List.Vector.replicate I2SHA1_BLOCK_SIZE 0, []⟩

def i2Sha1 (data : List UInt8) (len : UInt32) : Option Digest :=
  (i2Sha1Append sha1_transform (i2Sha1Init .zero) data len).bind fun sha1 =>
    (i2Sha1Finish sha1_transform sha1).map Prod.fst

/-! ### The compression function

As the source has it where `BYTE_ORDER` is `LITTLE_ENDIAN`. -/

def rol (value bits : UInt32) : UInt32 := (value <<< bits) ||| (value >>> (32 - bits))

abbrev WordBlock := List.Vector UInt32 16

/-- `memcpy(block, buffer, I2SHA1_BLOCK_SIZE)` on a little-endian machine. -/
def loadBlock (buffer : Block) : WordBlock :=
  List.Vector.ofFn fun i =>
    let byte (k : Fin 4) : UInt32 :=
      (buffer.get ⟨4 * i.1 + k.1, show 4 * i.1 + k.1 < 64 by omega⟩).toUInt32
    byte 0 ||| (byte 1 <<< 8) ||| (byte 2 <<< 16) ||| (byte 3 <<< 24)

/-- `blk0(i)`: the word in big-endian order. -/
def blk0 (block : WordBlock) (i : Fin 16) : WordBlock :=
  let word := block.get i
  block.set i ((rol word 24 &&& 0xFF00FF00) ||| (rol word 8 &&& 0x00FF00FF))

/-- `blk(i)`: the next word of the expansion. -/
def blk (block : WordBlock) (i : Fin 16) : WordBlock :=
  block.set i (rol (block.get (i + 13) ^^^ block.get (i + 8) ^^^ block.get (i + 2) ^^^
    block.get i) 1)

/-- The working variables, in the order in which a round has them as arguments. -/
structure Round where
  v : UInt32
  w : UInt32
  x : UInt32
  y : UInt32
  z : UInt32
  block : WordBlock

/-- The function of the round `i` and its constant, in `R0` to `R4`. -/
def roundFunction (i : ℕ) (w x y : UInt32) : UInt32 × UInt32 :=
  if i < 20 then ((w &&& (x ^^^ y)) ^^^ y, 0x5A827999)
  else if i < 40 then (w ^^^ x ^^^ y, 0x6ED9EBA1)
  else if i < 60 then (((w ||| x) &&& y) ||| (w &&& x), 0x8F1BBCDC)
  else (w ^^^ x ^^^ y, 0xCA62C1D6)

/-- One of `R0` to `R4`. The next one has the variables shifted by one place. -/
def Round.step (r : Round) (i : ℕ) : Round :=
  let block := if i < 16 then blk0 r.block (Fin.ofNat 16 i) else blk r.block (Fin.ofNat 16 i)
  let (f, constant) := roundFunction i r.w r.x r.y
  let z := r.z + (f + block.get (Fin.ofNat 16 i) + constant + rol r.v 5)
  ⟨z, r.v, rol r.w 30, r.x, r.y, block⟩

def sha1Transform (state : Sha1State) (buffer : Block) : Sha1State :=
  let start : Round :=
    ⟨state.get 0, state.get 1, state.get 2, state.get 3, state.get 4, loadBlock buffer⟩
  let r := (List.range 80).foldl Round.step start
  ⟨[state.get 0 + r.v, state.get 1 + r.w, state.get 2 + r.x, state.get 3 + r.y,
    state.get 4 + r.z], rfl⟩

/-- The message "abc" of the test program, padded to one block. -/
example : (sha1Transform (i2Sha1Init .zero).state
      ⟨[0x61, 0x62, 0x63, 0x80] ++ List.replicate 59 0 ++ [24], by decide⟩).toList =
    [0xA9993E36, 0x4706816A, 0xBA3E2571, 0x7850C26C, 0x9CD0D89D] := by
  decide +kernel

end I2util
