import I2util.Library.Growing
import I2util.Conf.FileLine

/-!
`parsefileline` with the line buffer that its callers hand over.

The buffer grows in steps of `I2LINEBUFINC`. A line that is returned stands at its start,
with a NUL behind it.
-/

namespace I2util

abbrev I2LINEBUFINC : ℕ := 120

/-- `*lbuf` and `*lbuf_max`. -/
abbrev Lbuf : Type := Growing.Block UInt8

def strAt (lbuf : Lbuf) (i : ℕ) : List UInt8 := cstr (lbuf.cells.drop i)

theorem strAt_of_starts {lbuf : Lbuf} {x s y : List UInt8}
    (h : lbuf.Starts (x ++ (s ++ 0 :: y))) (hs : (0 : UInt8) ∉ s) : strAt lbuf x.length = s := by
  obtain ⟨rest, hrest⟩ := h.drop
  rw [strAt, hrest, List.append_assoc, cstr_append hs]
  simp [cstr]

theorem parsefileline.scan_no_nul {rc : ℤ} {line : List UInt8} {ns : ℕ} {comment : Bool}
    {s : List UInt8} (hline : (0 : UInt8) ∉ line) (hs : (0 : UInt8) ∉ s) :
    (0 : UInt8) ∉ (parsefileline.scan rc line ns comment s).line := by
  induction s generalizing rc line ns comment with
  | nil =>
      rw [parsefileline.scan]
      split <;> exact hline
  | cons c s ih =>
      simp only [List.mem_cons, not_or] at hs
      have hskip := fun rc ns comment => @ih rc line ns comment hline hs.2
      have hmore := fun rc => @ih rc (line ++ [c]) ns false (by simp [hline, hs.1]) hs.2
      rw [parsefileline.scan]
      split_ifs <;> first | exact hskip _ _ _ | exact hmore _ | exact hline

theorem parsefileline_no_nul {fp : List UInt8} (hfp : (0 : UInt8) ∉ fp) (rc : ℤ) :
    (0 : UInt8) ∉ (parsefileline fp rc).line ∧ (0 : UInt8) ∉ (parsefileline fp rc).rest :=
  ⟨parsefileline.scan_no_nul List.not_mem_nil hfp,
    fun hmem => hfp (parsefileline.scan_suffix.subset hmem)⟩

namespace Buffered

inductive ErrMsg
  | msg (m : I2util.ErrMsg)
  | realloc (max : ℕ)
  deriving DecidableEq

structure LineRead where
  rc : ℤ
  lbuf : Lbuf
  rest : List UInt8
  out : List UInt8
  err : Option ErrMsg

def LineRead.print (text : List UInt8) (r : LineRead) : LineRead :=
  { r with out := text ++ r.out }

/-- The loop of `parsefileline`; `comment` says which of the two loops is running. -/
def parsefileline.scan (a : Growing.Realloc UInt8) (rc : ℤ) (lbuf : Lbuf) (nc ns : ℕ)
    (comment : Bool) : List UInt8 → LineRead
  | [] =>
      if nc = 0 then ⟨0, lbuf, [], [], none⟩
      else ⟨rc + 1, lbuf.put nc 0, [], [], none⟩
  | c :: s =>
      if comment = true then
        if c = nl then (parsefileline.scan a (rc + 1) lbuf nc ns false s).print [c]
        else (parsefileline.scan a rc lbuf nc ns true s).print [c]
      else if c = nl then
        if nc ≠ 0 then ⟨rc + 1, lbuf.put nc 0, s, [], none⟩
        else (parsefileline.scan a (rc + 1) lbuf nc 0 false s).print [nl]
      else if nc = 0 ∧ c = hash then
        (parsefileline.scan a rc lbuf nc ns true s).print (List.replicate ns blank ++ [hash])
      else if nc = 0 ∧ isspace c = true then
        parsefileline.scan a rc lbuf nc (ns + 1) false s
      else if ns ≠ 0 then
        -- the row is not counted yet
        ⟨-rc, lbuf, s, [], some (.msg (.leadingSpacesNotAllowed rc))⟩
      else
        -- room for the character and for the NUL
        match lbuf.grow a I2LINEBUFINC (nc + 2) with
        | (false, lbuf) => ⟨-rc, lbuf, s, [], some (.realloc lbuf.max)⟩
        | (true, lbuf) => parsefileline.scan a rc (lbuf.put nc c) (nc + 1) ns false s

def parsefileline (a : Growing.Realloc UInt8) (lbuf : Lbuf) (fp : List UInt8) (rc : ℤ) :
    LineRead :=
  parsefileline.scan a rc lbuf 0 0 false fp

/-- The call does what the one without a buffer does, and leaves its line in the buffer. -/
structure LineRead.Agrees (b : LineRead) (r : I2util.LineRead) : Prop where
  rc : b.rc = r.rc
  rest : b.rest = r.rest
  out : b.out = r.out
  err : b.err = r.err.map .msg
  sound : b.lbuf.Sound
  line : 0 < r.rc → b.lbuf.Starts (r.line ++ [0])

theorem LineRead.Agrees.print {b : LineRead} {r : I2util.LineRead} (h : b.Agrees r)
    (text : List UInt8) : (b.print text).Agrees (r.print text) :=
  ⟨h.rc, h.rest, congrArg (text ++ ·) h.out, h.err, h.sound, h.line⟩

variable {a : Growing.Realloc UInt8}

/-- A character is written behind the text, and there is room for a NUL. -/
theorem grow_push (ha : a.Succeeds) {lbuf : Lbuf} {line : List UInt8} (h : lbuf.Starts line)
    (c : UInt8) :
    ∃ lbuf', lbuf.grow a I2LINEBUFINC (line.length + 2) = (true, lbuf') ∧
      (lbuf'.put line.length c).Starts (line ++ [c]) ∧
        (line ++ [c]).length < (lbuf'.put line.length c).max := by
  obtain ⟨lbuf', hgrow, hkept, hmax⟩ := h.grow ha (Nat.succ_pos 119) (line.length + 2)
  refine ⟨lbuf', hgrow, hkept.push (by omega) c, ?_⟩
  rw [List.length_append, List.length_singleton, Growing.Block.put_max]
  omega

theorem parsefileline.scan_agrees (ha : a.Succeeds) {lbuf : Lbuf} {line : List UInt8}
    (hstarts : lbuf.Starts line) (hroom : line ≠ [] → line.length < lbuf.max) {rc : ℤ}
    (hrc : 0 ≤ rc) (ns : ℕ) (comment : Bool) (s : List UInt8) :
    (parsefileline.scan a rc lbuf line.length ns comment s).Agrees
      (I2util.parsefileline.scan rc line ns comment s) := by
  induction s generalizing lbuf line rc ns comment with
  | nil =>
      rw [parsefileline.scan, I2util.parsefileline.scan]
      by_cases hline : line = []
      · rw [if_pos (by rw [hline]; rfl), if_pos hline]
        exact ⟨rfl, rfl, rfl, rfl, hstarts.sound, fun h => absurd h (Int.lt_irrefl 0)⟩
      · rw [if_neg (by rwa [List.length_eq_zero_iff]), if_neg hline]
        have hend := hstarts.push (hroom hline) 0
        exact ⟨rfl, rfl, rfl, rfl, hend.sound, fun _ => hend⟩
  | cons c s ih =>
      have hnext : 0 ≤ rc + 1 := by omega
      simp only [parsefileline.scan, I2util.parsefileline.scan, List.length_eq_zero_iff, ne_eq]
      split_ifs with hcomment hnl hnl hline hhash hspace hns
      · exact (ih hstarts hroom hnext ns false).print [c]
      · exact (ih hstarts hroom hrc ns true).print [c]
      · exact (ih hstarts hroom hnext 0 false).print [nl]
      · have hend := hstarts.push (hroom hline) 0
        exact ⟨rfl, rfl, rfl, rfl, hend.sound, fun _ => hend⟩
      · exact (ih hstarts hroom hrc ns true).print _
      · exact ih hstarts hroom hrc (ns + 1) false
      · obtain ⟨lbuf', hgrow, hchar, hmore⟩ := grow_push ha hstarts c
        have hrest := ih hchar (fun _ => hmore) hrc ns false
        rw [List.length_append, List.length_singleton] at hrest
        simpa only [hgrow] using hrest
      · refine ⟨rfl, rfl, rfl, rfl, hstarts.sound, fun h => ?_⟩
        simp only at h
        omega

theorem parsefileline_agrees (ha : a.Succeeds) {lbuf : Lbuf} (hb : lbuf.Sound) {rc : ℤ}
    (hrc : 0 ≤ rc) (fp : List UInt8) :
    (parsefileline a lbuf fp rc).Agrees (I2util.parsefileline fp rc) :=
  parsefileline.scan_agrees ha hb.starts_nil (fun h => absurd rfl h) hrc 0 false fp

end Buffered

end I2util
