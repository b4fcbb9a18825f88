import I2util.Conf.KeyLines
import I2util.Library.Memory

/-!
`hex.c` in memory, one character at a time.

`I2HexDecode` may write to the memory that it reads. It writes at most one byte for two
characters, so it does not overtake itself; behind the end of the string it writes zeros.
-/

namespace I2util

/-- `I2HexEncode` to `buff`, for the bytes of other memory. A write outside the memory has
no result. -/
def i2HexEncodeAt (mem : List UInt8) (buff : ℕ) : List UInt8 → Option (List UInt8)
  | [] => (Memory.write (Memory.block mem) buff [0]).map Subtype.val
  | b :: bytes =>
      (Memory.write (Memory.block mem) buff [hexDigit (b >>> 4)]).bind fun mem =>
        (Memory.write (Memory.block mem.1) (buff + 1) [hexDigit (b &&& 0x0f)]).bind fun mem =>
          i2HexEncodeAt mem.1 (buff + 2) bytes

/-- The inner loop with `r` turns left: `byte` and `buff` behind it, or `none` inside for a
character that is no digit. The character is read before the turns are counted. -/
def i2HexDecodeAt.chars (mem : List UInt8) : ℕ → ℕ → UInt8 → Option (Option (UInt8 × ℕ))
  | 0, buff, byte => mem[buff]?.map fun _ => some (byte, buff)
  | r + 1, buff, byte =>
      mem[buff]?.bind fun c =>
        if c = 0 then some (some (byte, buff))
        else
          match hexOffset c with
          | none => some none
          | some offset =>
              -- the first of the two digits is the high one
              let byte := if r = 1 then (byte ||| offset) <<< 4 else byte ||| offset
              i2HexDecodeAt.chars mem r (buff + 1) byte

def i2HexDecodeAt.loop : ℕ → List UInt8 → ℕ → ℕ → Option (Bool × List UInt8)
  | 0, mem, _, _ => some (true, mem)
  | n + 1, mem, buff, bytes =>
      (i2HexDecodeAt.chars mem 2 buff 0).bind fun
        | none => some (false, mem)
        | some (byte, buff) =>
            (Memory.write (Memory.block mem) bytes [byte]).bind fun mem =>
              i2HexDecodeAt.loop n mem.1 buff (bytes + 1)

/-- `I2HexDecode` from `buff` to `bytes`: the result and the memory. The index is an
`unsigned int`, which never reaches a greater number of bytes. -/
def i2HexDecodeAt (mem : List UInt8) (buff bytes nbytes : ℕ) : Option (Bool × List UInt8) :=
  (i2HexDecodeAt.loop nbytes mem buff bytes).filter fun r => !r.1 || nbytes < 4294967296

/-! ### Strings in memory -/

/-- A string with its NUL at `buff`. -/
structure StringAt (mem : List UInt8) (buff : ℕ) (s : List UInt8) : Prop where
  no_nul : 0 ∉ s
  cells : ∃ pre rest, mem = pre ++ (s ++ 0 :: rest) ∧ pre.length = buff

variable {mem mem' s s' rest : List UInt8} {buff bytes n p : ℕ} {byte : UInt8}

theorem StringAt.getElem? (h : StringAt mem buff s) : mem[buff]? = some (s.headD 0) := by
  obtain ⟨pre, rest, rfl, rfl⟩ := h.cells
  rw [List.getElem?_append_right (Nat.le_refl _), Nat.sub_self]
  cases s <;> rfl

theorem StringAt.tail {c : UInt8} (h : StringAt mem buff (c :: s)) : StringAt mem (buff + 1) s := by
  obtain ⟨pre, rest, rfl, rfl⟩ := h.cells
  exact ⟨fun hmem => h.no_nul (List.mem_cons_of_mem c hmem), pre ++ [c], rest, by simp, by simp⟩

theorem StringAt.drop {eaten : List UInt8} (h : StringAt mem buff (eaten ++ s)) :
    StringAt mem (buff + eaten.length) s := by
  obtain ⟨pre, rest, rfl, rfl⟩ := h.cells
  exact ⟨fun hmem => h.no_nul (List.mem_append_right _ hmem), pre ++ eaten, rest, by simp, by simp⟩

/-- A string that was just written, with its NUL. -/
theorem StringAt.of_patch (hroom : buff + s.length < mem.length) (hs : 0 ∉ s) :
    StringAt (Memory.patch mem buff (s ++ [0])) buff s := by
  have hcells : Memory.patch mem buff (s ++ [0]) =
      mem.take buff ++ (s ++ 0 :: mem.drop (buff + (s ++ [0]).length)) := by
    rw [Memory.patch, List.append_assoc]
    rfl
  exact ⟨hs, _, _, hcells, List.length_take_of_le (by omega)⟩

/-- A byte that is written does not touch the string, or it is a zero at its end. -/
theorem StringAt.patch (h : StringAt mem buff s) (hp : p < mem.length)
    (hsafe : p < buff ∨ buff + s.length < p ∨ s = [] ∧ byte = 0) :
    StringAt (Memory.patch mem p [byte]) buff s := by
  obtain ⟨pre, rest, rfl, rfl⟩ := h.cells
  refine ⟨h.no_nul, ?_⟩
  by_cases hbefore : p < pre.length
  · refine ⟨Memory.patch pre p [byte], rest, Memory.patch_append hbefore _, ?_⟩
    exact Memory.length_patch hbefore
  · by_cases hbehind : pre.length + s.length < p
    · have hsplit : pre ++ (s ++ 0 :: rest) = (pre ++ (s ++ [0])) ++ rest := by simp
      have hlen : (pre ++ (s ++ [0])).length ≤ p := by
        simp only [List.length_append, List.length_singleton]
        omega
      rw [hsplit, Memory.patch_append_right hlen]
      exact ⟨pre, _, by simp only [List.append_assoc]; rfl, rfl⟩
    · obtain ⟨rfl, rfl⟩ : s = [] ∧ byte = 0 := by
        rcases hsafe with hlt | hlt | hboth
        · exact absurd hlt hbefore
        · exact absurd hlt hbehind
        · exact hboth
      obtain rfl : pre.length = p := by
        simp only [List.length_nil] at hbehind
        omega
      exact ⟨pre, rest, Memory.patch_same pre 0 rest, rfl⟩

/-! ### The loops -/

theorem i2HexDecodeAt.chars_nil (h : StringAt mem buff []) (r : ℕ) (byte : UInt8) :
    i2HexDecodeAt.chars mem (r + 1) buff byte = some (some (byte, buff)) := by
  rw [i2HexDecodeAt.chars, h.getElem?]
  rfl

theorem i2HexDecodeAt.chars_cons {c : UInt8} (h : StringAt mem buff (c :: s)) (r : ℕ)
    (byte : UInt8) :
    i2HexDecodeAt.chars mem (r + 1) buff byte =
      match hexOffset c with
      | none => some none
      | some offset =>
          i2HexDecodeAt.chars mem r (buff + 1)
            (if r = 1 then (byte ||| offset) <<< 4 else byte ||| offset) := by
  have hc : c ≠ 0 := fun heq => h.no_nul (by rw [heq]; exact List.mem_cons_self)
  rw [i2HexDecodeAt.chars, h.getElem?, List.headD_cons, Option.bind_some, if_neg hc]

/-- The inner loop does what `decodeByte` does, and moves `buff` behind what it read. -/
theorem i2HexDecodeAt.chars_eq (h : StringAt mem buff s) :
    i2HexDecodeAt.chars mem 2 buff 0 =
      some ((decodeByte s).map fun (byte, rest) => (byte, buff + (s.length - rest.length))) := by
  match s, h with
  | [], h => exact chars_nil h 1 0
  | [a], h =>
      rw [chars_cons h, decodeByte]
      cases hexOffset a with
      | none => rfl
      | some high =>
          simp only
          rw [chars_nil h.tail, if_pos trivial, UInt8.zero_or]
          rfl
  | a :: b :: t, h =>
      have hread : (a :: b :: t).length - t.length = 2 := by
        simp only [List.length_cons]
        omega
      rw [chars_cons h, decodeByte]
      cases hexOffset a with
      | none => rfl
      | some high =>
          simp only
          rw [chars_cons h.tail, if_pos trivial, UInt8.zero_or]
          cases hexOffset b with
          | none => rfl
          | some low =>
              simp only [i2HexDecodeAt.chars, h.tail.tail.getElem?, Option.bind_some,
                Option.map_some, hread]
              rfl

theorem decodeByte_rest_length (h : decodeByte s = some (byte, rest)) :
    (∃ eaten, s = eaten ++ rest) ∧ (s = [] ∧ byte = 0 ∨ rest.length < s.length) := by
  match s, h with
  | [], h =>
      obtain ⟨rfl, rfl⟩ := Prod.mk.inj (Option.some.inj h)
      exact ⟨⟨[], rfl⟩, .inl ⟨rfl, rfl⟩⟩
  | [a], h =>
      obtain ⟨high, -, heq⟩ := Option.map_eq_some_iff.mp h
      obtain ⟨-, rfl⟩ := Prod.mk.inj heq
      exact ⟨⟨[a], rfl⟩, .inr (by simp)⟩
  | a :: b :: t, h =>
      obtain ⟨high, -, h⟩ := Option.bind_eq_some_iff.mp h
      obtain ⟨low, -, heq⟩ := Option.map_eq_some_iff.mp h
      obtain ⟨-, rfl⟩ := Prod.mk.inj heq
      refine ⟨⟨[a, b], rfl⟩, .inr ?_⟩
      simp only [List.length_cons]
      omega

/-- The digits and a NUL behind them, which takes one byte more than the digits. -/
theorem i2HexEncodeAt_eq {bs : List UInt8} (hroom : buff + 2 * bs.length < mem.length) :
    i2HexEncodeAt mem buff bs = some (Memory.patch mem buff (i2HexEncode bs ++ [0])) := by
  induction bs generalizing mem buff with
  | nil =>
      obtain ⟨m, hwrite, hm⟩ := @Memory.write_of_le _ _ [0] buff (Memory.block mem) hroom
      rw [i2HexEncodeAt, hwrite]
      exact congrArg some hm
  | cons b bs ih =>
      rw [List.length_cons] at hroom
      have hfirst : buff < mem.length := by omega
      obtain ⟨m, hwrite, hm⟩ :=
        @Memory.write_of_le _ _ [hexDigit (b >>> 4)] buff (Memory.block mem) hfirst
      change m.1 = Memory.patch mem buff [hexDigit (b >>> 4)] at hm
      have hlen : m.1.length = mem.length := by
        rw [hm]
        exact Memory.length_patch hfirst
      have hsecond : buff + 1 < m.1.length := by omega
      obtain ⟨m', hwrite', hm'⟩ :=
        @Memory.write_of_le _ _ [hexDigit (b &&& 0x0f)] (buff + 1) (Memory.block m.1) hsecond
      change m'.1 = Memory.patch m.1 (buff + 1) [hexDigit (b &&& 0x0f)] at hm'
      have hlen' : m'.1.length = m.1.length := by
        rw [hm']
        exact Memory.length_patch hsecond
      simp only [i2HexEncodeAt, hwrite, hwrite', Option.bind_some]
      rw [ih (by omega), hm', Memory.patch_patch_cons hsecond, hm, Memory.patch_patch_cons hfirst]
      rfl

/-- Where the next byte may go: in front of the string, or behind it, or anywhere once the
string is at its end. -/
def Ahead (s : List UInt8) (buff bytes : ℕ) : Prop :=
  s = [] ∨ bytes ≤ buff ∨ buff + s.length < bytes

/-- The byte of a turn goes where nothing is read any more, and the next one too. -/
theorem Ahead.turn (h : Ahead s buff bytes) (hbyte : decodeByte s = some (byte, rest)) :
    ∃ eaten, s = eaten ++ rest ∧
      (bytes < buff + eaten.length ∨ buff + eaten.length + rest.length < bytes ∨
        rest = [] ∧ byte = 0) ∧
      Ahead rest (buff + eaten.length) (bytes + 1) := by
  obtain ⟨⟨eaten, rfl⟩, hshorter⟩ := decodeByte_rest_length hbyte
  have hsafe : bytes < buff + eaten.length ∨ buff + eaten.length + rest.length < bytes ∨
      rest = [] ∧ byte = 0 := by
    rcases hshorter with ⟨hnil, rfl⟩ | hshorter
    · exact .inr (.inr ⟨(List.append_eq_nil_iff.mp hnil).2, rfl⟩)
    · rw [List.length_append] at hshorter
      rcases h with hnil | hle | hlt
      · rw [(List.append_eq_nil_iff.mp hnil).1] at hshorter
        simp at hshorter
      · exact .inl (by omega)
      · rw [List.length_append] at hlt
        exact .inr (.inl (by omega))
  refine ⟨eaten, rfl, hsafe, ?_⟩
  rcases hsafe with hlt | hlt | ⟨hnil, -⟩
  · exact .inr (.inl hlt)
  · exact .inr (.inr (by omega))
  · exact .inl hnil

/-- The bytes are those that the string is decoded to. -/
theorem i2HexDecodeAt.loop_eq (h : StringAt mem buff s) (hroom : bytes + n ≤ mem.length)
    (hahead : Ahead s buff bytes) :
    ∃ mem', i2HexDecodeAt.loop n mem buff bytes = some ((i2HexDecode s n).isSome, mem') ∧
      ∀ bs, i2HexDecode s n = some bs → mem' = Memory.patch mem bytes bs := by
  induction n generalizing mem s buff bytes with
  | zero =>
      refine ⟨mem, rfl, fun bs hbs => ?_⟩
      obtain rfl := Option.some.inj hbs
      exact (List.take_append_drop _ _).symm
  | succ n ih =>
      rw [loop, chars_eq h, Option.bind_some, i2HexDecode]
      cases hbyte : decodeByte s with
      | none => exact ⟨mem, rfl, fun bs hbs => by cases hbs⟩
      | some p =>
          obtain ⟨byte, rest⟩ := p
          obtain ⟨eaten, rfl, hsafe, hnext⟩ := hahead.turn hbyte
          have hread : (eaten ++ rest).length - rest.length = eaten.length := by
            rw [List.length_append]
            omega
          have hbytes : bytes < mem.length := by omega
          obtain ⟨m, hwrite, hm⟩ := @Memory.write_of_le _ _ [byte] bytes (Memory.block mem) hbytes
          change m.1 = Memory.patch mem bytes [byte] at hm
          have hstring : StringAt m.1 (buff + eaten.length) rest := by
            rw [hm]
            exact h.drop.patch hbytes hsafe
          obtain ⟨mem', hloop, hresult⟩ := ih hstring
            (by rw [hm, Memory.length_patch hbytes]; omega) hnext
          refine ⟨mem', ?_, fun bs hbs => ?_⟩
          · simp only [Option.map_some, hread, hwrite, Option.bind_some, Option.isSome_map]
            exact hloop
          · obtain ⟨tail, htail, rfl⟩ := Option.map_eq_some_iff.mp hbs
            rw [hresult tail htail, hm, Memory.patch_patch_cons hbytes]

/-! ### Calls -/

/-- The memory and the arguments of `I2HexDecode` for `n` bytes of the string `s`. -/
structure HexCall (s : List UInt8) (n : ℕ) where
  mem : List UInt8
  buff : ℕ
  bytes : ℕ
  string : StringAt mem buff s
  room : bytes + n ≤ mem.length

namespace HexCall

def Apart (call : HexCall s n) : Prop :=
  call.bytes + n ≤ call.buff ∨ call.buff + s.length < call.bytes

def InPlace (call : HexCall s n) : Prop := call.bytes = call.buff

def run (call : HexCall s n) : Option (Bool × List UInt8) :=
  i2HexDecodeAt call.mem call.buff call.bytes n

def output (call : HexCall s n) (mem : List UInt8) : List UInt8 := (mem.drop call.bytes).take n

theorem ahead (call : HexCall s n) (h : call.Apart ∨ call.InPlace) :
    Ahead s call.buff call.bytes := by
  rcases h with (hbefore | hbehind) | hsame
  · exact .inr (.inl (by omega))
  · exact .inr (.inr hbehind)
  · exact .inr (.inl (Nat.le_of_eq hsame))

/-- Both ways to call it do what the decoding of the string does. -/
theorem run_eq (call : HexCall s n) (hn : n < 4294967296) (h : call.Apart ∨ call.InPlace) :
    ∃ mem', call.run = some ((i2HexDecode s n).isSome, mem') ∧
      ∀ bs, i2HexDecode s n = some bs → call.output mem' = bs := by
  obtain ⟨mem', hloop, hbytes⟩ := i2HexDecodeAt.loop_eq call.string call.room (call.ahead h)
  refine ⟨mem', ?_, fun bs hbs => ?_⟩
  · rw [run, i2HexDecodeAt, hloop, Option.filter_some]
    simp only [hn, decide_true, Bool.or_true, if_true]
  · obtain rfl := i2HexDecode_length hbs
    rw [output, hbytes bs hbs]
    exact Memory.slice_patch call.room

end HexCall

theorem i2HexEncode_no_nul (bs : List UInt8) : 0 ∉ i2HexEncode bs := fun hmem =>
  (not_isspace_hexDigit (isHexDigit_of_mem_encode hmem)).2.1 rfl

/-- What was encoded is decoded again, in any case of its letters and also in place; and in
place every string has the result and the bytes that it has elsewhere. -/
theorem i2Hex_inPlace (n : ℕ) (hn : n < 4294967296) :
    (∀ b : List UInt8, b.length = n →
      (∀ mem buff, buff + (2 * n + 1) ≤ mem.length →
        ∃ mem', i2HexEncodeAt mem buff b = some mem' ∧ StringAt mem' buff (i2HexEncode b)) ∧
      ∀ s, s.map tolower = (i2HexEncode b).map tolower →
        ∀ call : HexCall s n, call.Apart ∨ call.InPlace →
          ∃ mem', call.run = some (true, mem') ∧ call.output mem' = b) ∧
    ∀ (s : List UInt8) (inside outside : HexCall s n), inside.InPlace → outside.Apart →
      ∃ ok mem₁ mem₂, inside.run = some (ok, mem₁) ∧ outside.run = some (ok, mem₂) ∧
        (ok = true → inside.output mem₁ = outside.output mem₂) := by
  refine ⟨?_, ?_⟩
  · rintro b rfl
    refine ⟨fun mem buff hroom => ?_, fun s hcase call hcall => ?_⟩
    · have hdigits : buff + (i2HexEncode b).length < mem.length := by
        rw [i2HexEncode_length]
        omega
      exact ⟨_, i2HexEncodeAt_eq (by omega), .of_patch hdigits (i2HexEncode_no_nul b)⟩
    · have hdecode : i2HexDecode s b.length = some b := by
        rw [← i2HexDecode_tolower, hcase, i2HexDecode_tolower, i2HexDecode_encode]
      obtain ⟨mem', hrun, houtput⟩ := call.run_eq hn hcall
      rw [hdecode, Option.isSome_some] at hrun
      exact ⟨mem', hrun, houtput b hdecode⟩
  · intro s inside outside hinside houtside
    obtain ⟨mem₁, hrun₁, houtput₁⟩ := inside.run_eq hn (.inr hinside)
    obtain ⟨mem₂, hrun₂, houtput₂⟩ := outside.run_eq hn (.inl houtside)
    refine ⟨_, mem₁, mem₂, hrun₁, hrun₂, fun hok => ?_⟩
    obtain ⟨bs, hbs⟩ := Option.isSome_iff_exists.mp hok
    rw [houtput₁ bs hbs, houtput₂ bs hbs]

theorem i2Hex_inPlace_two :
    (∃ mem', i2HexDecodeAt (ascii "0ABc" ++ [0]) 0 0 2 = some (true, mem') ∧
      (mem'.drop 0).take 2 = [0x0a, 0xbc]) ∧
    ∃ ok mem₁ mem₂, i2HexDecodeAt (ascii "aBc" ++ [0]) 0 0 2 = some (ok, mem₁) ∧
      i2HexDecodeAt (ascii "aBc" ++ [0, 0, 0]) 0 4 2 = some (ok, mem₂) ∧
      (ok = true → (mem₁.drop 0).take 2 = (mem₂.drop 4).take 2) :=
  ⟨((i2Hex_inPlace 2 (by decide)).1 [0x0a, 0xbc] rfl).2 (ascii "0ABc") (by decide)
      ⟨ascii "0ABc" ++ [0], 0, 0, ⟨by decide, [], [], by decide, rfl⟩, by decide⟩ (.inr rfl),
    (i2Hex_inPlace 2 (by decide)).2 (ascii "aBc")
      ⟨ascii "aBc" ++ [0], 0, 0, ⟨by decide, [], [], by decide, rfl⟩, by decide⟩
      ⟨ascii "aBc" ++ [0, 0, 0], 0, 4, ⟨by decide, [], [0, 0], by decide, rfl⟩, by decide⟩
      rfl (.inr (by decide))⟩

/-! ### Short strings -/

/-- The first `2 * n` characters of `s`, with zeros for those that `s` does not have. -/
def i2HexDecode.padded (s : List UInt8) (n : ℕ) : List UInt8 :=
  s.take (2 * n) ++ List.replicate (2 * n - s.length) (hexDigit 0)

theorem i2HexDecode.padded_length (s : List UInt8) (n : ℕ) : (padded s n).length = 2 * n := by
  rw [padded, List.length_append, List.length_take, List.length_replicate]
  omega

/-- The lower case of the zeros are the zeros. -/
theorem i2HexDecode.padded_tolower (s : List UInt8) (n : ℕ) :
    (padded s n).map tolower =
      (s.take (2 * n)).map tolower ++ List.replicate (2 * n - s.length) (hexDigit 0) := by
  have hzero : tolower (hexDigit 0) = hexDigit 0 := by decide
  rw [padded, List.map_append, List.map_replicate, hzero]

/-- A turn that finds the end of the string stores what two zeros, or a digit and a zero,
would have given. -/
theorem i2HexDecode_padded (s : List UInt8) (n : ℕ) :
    i2HexDecode (i2HexDecode.padded s n) n = i2HexDecode s n := by
  have hzero : hexOffset (hexDigit 0) = some 0 := by decide
  induction n generalizing s with
  | zero => rfl
  | succ n ih =>
      have hdouble : 2 * (n + 1) = 2 * n + 1 + 1 := by omega
      match s with
      | [] =>
          have htail : i2HexDecode.padded [] (n + 1) =
              hexDigit 0 :: hexDigit 0 :: i2HexDecode.padded [] n := by
            simp only [i2HexDecode.padded, hdouble, List.take_nil, List.nil_append,
              List.length_nil, Nat.sub_zero, List.replicate_succ]
          simp [i2HexDecode, htail, decodeByte, hzero, ih]
      | [a] =>
          have htail : i2HexDecode.padded [a] (n + 1) =
              a :: hexDigit 0 :: i2HexDecode.padded [] n := by
            simp [i2HexDecode.padded, hdouble, List.replicate_succ]
          cases ha : hexOffset a <;> simp [i2HexDecode, htail, decodeByte, hzero, ha, ih]
      | a :: b :: t =>
          have htail : i2HexDecode.padded (a :: b :: t) (n + 1) =
              a :: b :: i2HexDecode.padded t n := by
            simp [i2HexDecode.padded, hdouble]
          cases ha : hexOffset a <;> cases hb : hexOffset b <;>
            simp [i2HexDecode, htail, decodeByte, ha, hb, ih]

/-- What the bytes that a string is decoded to encode to. -/
theorem i2HexEncode_of_decode {bs : List UInt8} (h : i2HexDecode s n = some bs) :
    i2HexEncode bs =
      (s.take (2 * n)).map tolower ++ List.replicate (2 * n - s.length) (hexDigit 0) := by
  rw [← i2HexDecode.padded_tolower]
  rw [← i2HexDecode_padded] at h
  exact ((i2HexDecode_iff (i2HexDecode.padded_length s n)).mp h).2

/-- A call that returns `True`, with any number of bytes. -/
theorem HexCall.output_of_true (call : HexCall s n) (h : call.Apart ∨ call.InPlace)
    (hrun : call.run = some (true, mem')) : i2HexDecode s n = some (call.output mem') := by
  -- with more bytes than the index can count there is no return
  have hn : n < 4294967296 := by
    obtain ⟨-, hcount⟩ := Option.filter_eq_some_iff.mp hrun
    simpa using hcount
  obtain ⟨mem₁, hresult, houtput⟩ := call.run_eq hn h
  obtain ⟨hok, rfl⟩ := Prod.mk.inj (Option.some.inj (hrun.symm.trans hresult))
  obtain ⟨bs, hbs⟩ := Option.isSome_iff_exists.mp hok.symm
  rw [hbs, houtput bs hbs]

/-- What is accepted encodes to the first `2 * n` characters in lower case, and to zeros
where the string ends before them. -/
theorem i2HexDecode_accepts (s : List UInt8) (n : ℕ) (call : HexCall s n)
    (h : call.Apart ∨ call.InPlace) (mem' : List UInt8) (hrun : call.run = some (true, mem')) :
    i2HexEncode (call.output mem') =
        (s.take (2 * n)).map tolower ++ List.replicate (2 * n - s.length) (hexDigit 0) ∧
      (2 * n ≤ s.length → i2HexEncode (call.output mem') = (s.take (2 * n)).map tolower) := by
  have hencode := i2HexEncode_of_decode (call.output_of_true h hrun)
  refine ⟨hencode, fun hlong => ?_⟩
  rw [hencode, Nat.sub_eq_zero_of_le hlong, List.replicate_zero, List.append_nil]

theorem i2HexDecode_accepts_three :
    (i2HexEncode [0xab, 0xc0] = ascii "abc0" ∧
      (2 * 2 ≤ (ascii "aBc").length → i2HexEncode [0xab, 0xc0] = ascii "abc")) ∧
    (i2HexEncode [0] = ascii "00" ∧ (2 * 1 ≤ (ascii "").length → i2HexEncode [0] = ascii "")) :=
  ⟨i2HexDecode_accepts (ascii "aBc") 2
      ⟨ascii "aBc" ++ [0], 0, 0, ⟨by decide, [], [], by decide, rfl⟩, by decide⟩ (.inr rfl)
      [0xab, 0xc0, 99, 0] (by decide),
    i2HexDecode_accepts (ascii "") 1
      ⟨[0, 7], 0, 1, ⟨by decide, [], [7], by decide, rfl⟩, by decide⟩ (.inl (.inr (by decide)))
      [0, 0] (by decide)⟩

/-- One digit is accepted for a whole byte, and it is not the encoding of that byte. -/
theorem i2HexDecode_accepts_one_digit :
    ¬∀ (s : List UInt8) (n : ℕ) (call : HexCall s n) (mem' : List UInt8),
      call.Apart ∨ call.InPlace → call.run = some (true, mem') →
        i2HexEncode (call.output mem') = (s.take (2 * n)).map tolower := by
  intro hclaim
  have hone := hclaim (ascii "a") 1
    ⟨ascii "a" ++ [0], 0, 0, ⟨by decide, [], [], by decide, rfl⟩, by decide⟩ [0xa0, 0]
    (.inr rfl) (by decide)
  exact absurd hone (by decide)

end I2util
