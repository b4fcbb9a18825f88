import I2util.Conf.ConfFile
import I2util.Conf.Sentinel

/-!
A comment behind a setting: `I2GetConfLine` looks for backslashes before `I2ReadConfVar`
knows where the comment begins.
-/

namespace I2util

def settingLine (key val comment : List UInt8) : List UInt8 :=
  key ++ blank :: (val ++ blank :: hash :: comment)

/-- The setting is read, and the next call starts at the following line. -/
def CommentIgnored (key val comment lines : List UInt8) (rc : ℤ) (max : ℕ) : Prop :=
  let r := i2ReadConfVar (settingLine key val comment ++ nl :: lines) rc max
  r.rc = rc + 1 ∧ r.key = some key ∧ r.val = some val ∧ r.rest = lines

/-- The characters of a line are collected up to a backslash. -/
theorem i2GetConfLine.scan_collect {t line s : List UInt8} {rc : ℤ} (hline : line ≠ [])
    (hnl : nl ∉ t) (hback : backslash ∉ t) :
    i2GetConfLine.scan rc line .text (t ++ s) = i2GetConfLine.scan rc (line ++ t) .text s := by
  induction t generalizing line with
  | nil => simp
  | cons c t ih =>
      simp only [List.mem_cons, not_or] at hnl hback
      have hc : c ≠ nl := Ne.symm hnl.1
      have hb : c ≠ backslash := Ne.symm hback.1
      have hrest := @ih (line ++ [c]) (by simp) hnl.2 hback.2
      simpa [i2GetConfLine.scan, hline, hc, hb] using hrest

/-- A backslash in a line that has begun makes the line end in another row, or not at
all. -/
theorem i2GetConfLine.scan_backslash {b line lines : List UInt8} {rc : ℤ} (hrc : 0 ≤ rc)
    (hline : line ≠ []) (hb : nl ∉ b) :
    (i2GetConfLine.scan rc line .escape (b ++ nl :: lines)).rc ≠ rc + 1 := by
  cases b with
  | nil =>
      -- the next row belongs to the line, which is counted once more
      have hscan := @i2GetConfLine.scan_rc (rc + 1) line .text lines (by omega)
      rw [List.nil_append, i2GetConfLine.scan, if_pos rfl]
      rcases hscan with ⟨herr, -⟩ | ⟨-, hneg⟩
      · have hrow := i2GetConfLine.scan_line_row hline herr
        omega
      · omega
  | cons c b =>
      have hc : c ≠ nl := fun h => hb (h ▸ List.mem_cons_self)
      rw [List.cons_append, i2GetConfLine.scan, if_neg hc]
      simp only
      omega

theorem blankText_blank : BlankText [blank] := by
  simp [BlankText, blank, nl]

def settingEntry {key val comment : List UInt8} (hkey : IsWord key) (hval : IsWord val)
    (hnl : nl ∉ comment) (hback : backslash ∉ comment) : ConfEntry where
  lead := []
  key := key
  sepVal := some ([blank], val)
  trail := [blank]
  comment := some comment
  lead_blank := .nil
  key_ok := hkey
  sep_ok := fun _ hp => Option.mem_some.mp hp ▸ ⟨blankText_blank, List.cons_ne_nil _ _, hval⟩
  trail_blank := blankText_blank
  comment_ok := fun _ ht => Option.mem_some.mp ht ▸ ⟨List.cons_ne_nil _ _, hnl, hback⟩

theorem settingEntry_text {key val comment : List UInt8} (hkey : IsWord key) (hval : IsWord val)
    (hnl : nl ∉ comment) (hback : backslash ∉ comment) :
    (settingEntry hkey hval hnl hback).text = settingLine key val comment := rfl

/-- The row of a line with a backslash in its comment is another one than the next. -/
theorem i2GetConfLine_setting_backslash {key val a b : List UInt8} (hkey : IsWord key)
    (hval : IsWord val) (ha : nl ∉ a) (hback : backslash ∉ a) (hb : nl ∉ b)
    (lines : List UInt8) {rc : ℤ} (hrc : 0 ≤ rc) :
    (i2GetConfLine (settingLine key val (a ++ backslash :: b) ++ nl :: lines) rc).rc ≠ rc + 1 := by
  have hchars := (settingEntry hkey hval ha hback).text_chars
  rw [settingEntry_text] at hchars
  obtain ⟨c, u, rfl⟩ := List.exists_cons_of_ne_nil hkey.ne_nil
  have hspace : isspace c = false := hkey.isspace_false c List.mem_cons_self
  have hhash : c ≠ hash := fun h => hkey.no_hash (by rw [h]; rfl)
  simp only [settingLine, List.cons_append, List.mem_cons, not_or] at hchars
  obtain ⟨⟨hcnl, hnl⟩, hcback, hno⟩ := hchars
  have hstart : i2GetConfLine (settingLine (c :: u) val (a ++ backslash :: b) ++ nl :: lines) rc =
      i2GetConfLine.scan rc [c] .text
        ((u ++ blank :: (val ++ blank :: hash :: a)) ++ (backslash :: (b ++ nl :: lines))) := by
    simp [settingLine, i2GetConfLine, i2GetConfLine.scan, hspace, hhash, Ne.symm hcnl,
      Ne.symm hcback]
  rw [hstart, i2GetConfLine.scan_collect (List.cons_ne_nil c []) hnl hno]
  have hend := @i2GetConfLine.scan_backslash b ([c] ++ (u ++ blank :: (val ++ blank :: hash :: a)))
    lines rc hrc (by simp) hb
  simpa [i2GetConfLine.scan] using hend

theorem commentIgnored_iff {key val comment : List UInt8} (hkey : IsWord key) (hval : IsWord val)
    (hcomment : nl ∉ comment ∧ (0 : UInt8) ∉ comment) (lines : List UInt8) {rc : ℤ}
    (hrc : 0 ≤ rc) {max : ℕ} (hfits : key.length + 1 ≤ max ∧ val.length + 1 ≤ max) :
    CommentIgnored key val comment lines rc max ↔ backslash ∉ comment := by
  constructor
  · rintro ⟨hrow, -⟩ hback
    -- the first backslash of the comment
    obtain ⟨a, b, rfl, ha⟩ := List.eq_append_cons_of_mem hback
    simp only [List.mem_append, List.mem_cons, not_or] at hcomment
    obtain ⟨⟨hnla, -, hnlb⟩, -⟩ := hcomment
    have hline := i2GetConfLine_setting_backslash hkey hval hnla ha hnlb lines hrc
    rcases le_or_gt (i2GetConfLine (settingLine key val (a ++ backslash :: b) ++ nl :: lines)
      rc).rc 0 with hle | hpos
    · rw [i2ReadConfVar_rc_le hle] at hrow
      exact hline hrow
    · rcases i2ReadConfVar_rc_of_pos max hpos with h | h <;> omega
  · intro hback
    have hread := @ConfItem.i2ReadConfVar_pair
      (.entry (settingEntry hkey hval hcomment.1 hback) _ (.refl _)) [nl] lines key val rc max rfl
      (by simpa [ConfItem.Fits, ConfItem.pair, settingEntry, ConfEntry.value] using hfits)
      (.newline lines) hrc
    have hrows := (settingEntry hkey hval hcomment.1 hback).text_chars.1
    rw [ConfItem.text, settingEntry_text] at hread
    rw [settingEntry_text] at hrows
    rw [List.count_eq_zero_of_not_mem hrows] at hread
    rw [CommentIgnored, ← List.singleton_append, hread]
    simp

theorem commentIgnored_port :
    CommentIgnored (ascii "port") (ascii "861") (ascii "see # RFC") (ascii "host a") 0 64 := by
  have hword : IsWord (ascii "port") ∧ IsWord (ascii "861") :=
    ⟨⟨by decide, by decide, by decide⟩, ⟨by decide, by decide, by decide⟩⟩
  exact (commentIgnored_iff hword.1 hword.2 (by decide) _ (Int.le_refl 0) (by decide)).mpr
    (by decide)

/-- The setting in the next row becomes a part of the comment. -/
theorem not_commentIgnored_continued :
    IsWord (ascii "port") ∧ IsWord (ascii "861") ∧
      ¬CommentIgnored (ascii "port") (ascii "861") (ascii "tmp\\") (ascii "host a") 0 64 := by
  refine ⟨⟨by decide, by decide, by decide⟩, ⟨by decide, by decide, by decide⟩, ?_⟩
  rintro ⟨-, -, -, hrest⟩
  exact absurd hrest (by decide)

end I2util
