import I2util.Conf.PFRecord

/-!
The two record formats, and the passage of `main` in `aespasswd.c` and
`pfstore.c` that rewrites a file of records.

Both programs read the old file up to the identity, write the new record unless
they delete, and copy what follows. They differ in the reader and the writer
they call.
-/

namespace I2util

/-- A reader and a writer of record lines. -/
structure Format where
  judge : Option (List UInt8) → List UInt8 → Verdict (List UInt8 × List UInt8)
  write : List UInt8 → List UInt8 → ℤ × List UInt8

def keyFormat : Format := ⟨keyLine, i2WriteKeyLine⟩

def pfFormat : Format := ⟨pfLine, i2WritePFLine⟩

namespace Format

/-- The reader on a stream; `none` is the null pointer. -/
def read (F : Format) (fp : Option (List UInt8)) (rc : ℤ) (id_query : Option (List UInt8)) :
    Option (FileRead (List UInt8 × List UInt8)) :=
  match fp with
  | none => some ⟨0, none, [], [], none⟩
  | some fp => readRecords (F.judge id_query) fp rc

theorem keyFormat_read (fp : Option (List UInt8)) (rc : ℤ) (query : Option (List UInt8)) :
    keyFormat.read fp rc query = i2ParseKeyFile fp rc query := rfl

theorem pfFormat_read (fp : Option (List UInt8)) (rc : ℤ) (query : Option (List UInt8)) :
    pfFormat.read fp rc query = i2ParsePFFile fp rc query := rfl

/-- The second pass: all that is left is copied, and any other value than 0 is
an error. `out` is what has been printed to `tofp` before. -/
def copyRest (F : Format) (fp : Option (List UInt8)) (rc : ℤ) (id : List UInt8)
    (out : List UInt8) : Option (ℕ × List UInt8) :=
  (F.read fp rc (some id)).map fun r =>
    if r.rc ≠ 0 then (1, out ++ r.out) else (0, out ++ r.out)

/-- The passage of `main` from the first parse to the rename: the exit status
and what has been printed to `tofp`. Without a value the record is deleted. -/
def update (F : Format) (fp : Option (List UInt8)) (id : List UInt8)
    (value : Option (List UInt8)) : Option (ℕ × List UInt8) :=
  (F.read fp 0 (some id)).bind fun r =>
    if r.rc < 0 then some (1, r.out)
    else
      let fp := fp.map fun _ => r.rest
      match value with
      | none =>
          if r.rc = 0 then some (1, r.out) else F.copyRest fp r.rc id r.out
      | some value =>
          let (ret, line) := F.write id value
          if ret < 0 then some (1, r.out ++ line)
          else F.copyRest fp r.rc id (r.out ++ line)

/-- What the reader finds in a line when it looks for nothing in particular. -/
def entry (F : Format) (raw : List UInt8) : Option (List UInt8 × List UInt8) :=
  match F.judge none raw with
  | .hit record => some record
  | _ => none

theorem keyFormat_entry (raw : List UInt8) : keyFormat.entry raw = keyEntry raw := rfl

theorem pfFormat_entry (raw : List UInt8) : pfFormat.entry raw = pfEntry raw := rfl

def entryOf (F : Format) : FileLine → Option (List UInt8 × List UInt8)
  | .record raw _ => F.entry raw
  | _ => none

def idOf (F : Format) (l : FileLine) : Option (List UInt8) := (F.entryOf l).map Prod.fst

end Format

/-- A line as a reader copies it: a blank line loses its white space. -/
def FileLine.normal : FileLine → FileLine
  | .blank _ _ => .blank [] .nil
  | l => l

@[simp] theorem FileLine.text_normal (l : FileLine) : l.normal.text = l.copy := by
  cases l <;> rfl

@[simp] theorem Format.entryOf_normal (F : Format) (l : FileLine) :
    F.entryOf l.normal = F.entryOf l := by
  cases l <;> rfl

theorem FileLine.render_normal (ls : List FileLine) :
    render (ls.map normal) = renderCopy ls := by
  induction ls with
  | nil => rfl
  | cons l ls ih => simp [ih]

theorem FileLine.record_mem_normal {ls : List FileLine} {raw : List UInt8} {h : DataText raw} :
    FileLine.record raw h ∈ ls.map normal ↔ FileLine.record raw h ∈ ls := by
  constructor
  · intro hmem
    obtain ⟨l, hl, heq⟩ := List.mem_map.mp hmem
    cases l with
    | record raw' h' => rwa [← heq]
    | blank ws h' => cases heq
    | comment text h' => cases heq
  · exact fun hmem => List.mem_map.mpr ⟨_, hmem, rfl⟩

/-- A record that the writer of a format writes and its reader accepts. -/
structure NewRecord (F : Format) where
  id : List UInt8
  value : List UInt8
  raw : List UInt8
  data : DataText raw
  entry_eq : F.entry raw = some (id, value)
  write_eq : F.write id value = (0, raw ++ [nl])

def NewRecord.line {F : Format} (r : NewRecord F) : FileLine := .record r.raw r.data

def NewRecord.ofKey (id key : List UInt8) (hid : IsIdentity id)
    (hlen : id.length ≤ I2MAXIDENTITYLEN) (hkey : key.length = I2KEYLEN) :
    NewRecord keyFormat where
  id := id
  value := key
  raw := id ++ tab :: i2HexEncode key
  data := by
    have hhex : ∀ c ∈ i2HexEncode key, isspace c = false ∧ c ≠ 0 := fun c hc =>
      have h := not_isspace_hexDigit (isHexDigit_of_mem_encode hc)
      ⟨h.1, h.2.1⟩
    apply hid.dataText
    · exact List.not_mem_cons_of_ne_of_not_mem (by decide)
        fun hmem => by simpa using (hhex nl hmem).1
    · exact List.not_mem_cons_of_ne_of_not_mem (by decide)
        fun hmem => (hhex 0 hmem).2 rfl
  entry_eq := keyEntry_write hid hlen hkey
  write_eq := i2WriteKeyLine_eq hid.ne_nil hlen hkey

def NewRecord.ofPassPhrase (id bytes : List UInt8) (hid : IsIdentity id) (hne : bytes ≠ [])
    (hfits : id.length + 2 * bytes.length + 2 ≤ 2147483647) : NewRecord pfFormat where
  id := id
  value := bytes
  raw := id ++ tab :: i2HexEncode bytes
  data := by
    rw [← PFRecord.ofBytes_raw hid hne]
    exact PFRecord.dataText _
  entry_eq := by
    have h := (PFRecord.ofBytes id bytes hid hne).entry
    rwa [PFRecord.ofBytes_raw, PFRecord.ofBytes_bytes] at h
  write_eq := by
    change i2WritePFLine id bytes = _
    rw [i2WritePFLine_eq hid.ne_nil, if_pos hfits]

theorem keyLine_nil (query : Option (List UInt8)) : keyLine query [] ≠ .skip := by
  cases query <;> simp [keyLine, identityWord, keyStart, strcspn]

theorem pfLine_nil (query : Option (List UInt8)) : pfLine query [] ≠ .skip := by
  simp [pfLine, startsSpace]

theorem keyLine_none_ne_skip (line : List UInt8) : keyLine none line ≠ .skip := by
  simp only [keyLine]
  split_ifs <;> try simp
  split <;> simp

theorem pfLine_none_ne_skip (line : List UInt8) : pfLine none line ≠ .skip := by
  simp only [pfLine, pfSkips, Bool.false_eq_true, if_false]
  split_ifs <;> try simp
  split <;> simp

/-- What the two formats have in common: a call without a query skips nothing, no
call skips an empty line, and a written record answers to its identity. -/
structure Format.Regular (F : Format) : Prop where
  nil_ne_skip : ∀ query, F.judge query [] ≠ .skip
  none_ne_skip : ∀ line, F.judge none line ≠ .skip
  judge_new : ∀ new : NewRecord F, F.judge (some new.id) new.raw = .hit (new.id, new.value)

theorem keyFormat_regular : keyFormat.Regular where
  nil_ne_skip := keyLine_nil
  none_ne_skip := keyLine_none_ne_skip
  judge_new := by
    intro new
    have hnul := keyEntry_no_nul new.entry_eq new.data.no_nul
    have hjudge := keyLine_query new.entry_eq new.data.no_nul hnul (keyEntry_length new.entry_eq)
    rwa [if_pos rfl] at hjudge

theorem pfFormat_regular : pfFormat.Regular where
  nil_ne_skip := pfLine_nil
  none_ne_skip := pfLine_none_ne_skip
  judge_new := by
    intro new
    obtain ⟨hid, -⟩ := pfEntry_iff.mp new.entry_eq
    obtain ⟨c, t, hct, hspace, -⟩ := new.data.first
    have hne : new.id ≠ [] := by
      rw [hid, hct]
      simp [hspace]
    have hnul : (0 : UInt8) ∉ new.id := fun hmem =>
      new.data.no_nul ((List.takeWhile_prefix _).subset (hid ▸ hmem))
    have hjudge := pfLine_query new.entry_eq new.data.no_nul hnul hne
    rwa [if_pos (comparable_self _)] at hjudge

end I2util
