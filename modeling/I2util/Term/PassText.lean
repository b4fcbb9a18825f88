import I2util.Term.ReadPass
import Mathlib.Algebra.GroupWithZero.Nat
import Mathlib.Data.List.Infix

/-!
The string that `I2ReadPassPhraseAlloc` returns after restarts.

The bytes of an attempt are saved from the start of the buffer on, but they are counted on
from those of the attempts before it. Where the buffer grows, the place of the next byte is
taken from that count.
-/

namespace I2util

/-- The bytes that are typed, up to the end of the line. -/
def Attempt.typed (att : Attempt) : List UInt8 :=
  att.keys.takeWhile fun ch => ch ≠ nl && ch ≠ cr

def Attempt.text (flags : UInt32) (att : Attempt) : List UInt8 := att.typed.map (saved flags)

namespace PassLine

def saveAll (a : Growing.Realloc UInt8) (st : PassLine) : List UInt8 → Bool × PassLine
  | [] => st.finish a
  | c :: t =>
      match st.grow a with
      | (false, st) => (false, st)
      | (true, st) => saveAll a (st.save c) t

variable {a : Growing.Realloc UInt8} {st st' : PassLine} {x t : List UInt8}

theorem read_eq (flags : UInt32) (st : PassLine) (keys : List UInt8) :
    i2ReadPassPhraseAlloc.read flags a st keys =
      st.saveAll a ((keys.takeWhile fun ch => ch ≠ nl && ch ≠ cr).map (saved flags)) := by
  induction keys generalizing st with
  | nil => rfl
  | cons ch keys ih =>
      rw [i2ReadPassPhraseAlloc.read, List.takeWhile_cons]
      by_cases hend : ch = nl ∨ ch = cr
      · have hstop : (ch ≠ nl && ch ≠ cr) = false := by
          rcases hend with rfl | rfl <;> decide
        rw [if_pos hend, hstop, if_neg Bool.false_ne_true]
        rfl
      · have hgo : (ch ≠ nl && ch ≠ cr) = true := by
          simpa [not_or] using hend
        rw [if_neg hend, hgo, if_pos rfl, List.map_cons, saveAll]
        rcases st.grow a with ⟨_ | _, st'⟩
        · rfl
        · exact ih _

/-- The next byte goes behind the text `x`, at the latest when the buffer has grown. -/
structure Ready (st : PassLine) (x : List UInt8) : Prop where
  starts : st.lbuf.Starts x
  pf_len : st.pf_len = x.length
  p : st.p = x.length ∨ st.lbuf.max = x.length

theorem Ready.grow (h : st.Ready x) (hgrow : st.grow a = (true, st')) :
    st'.lbuf.Starts x ∧ st'.p = x.length ∧ st'.pf_len = x.length ∧
      x.length < st'.lbuf.max := by
  have hlen := h.pf_len
  rw [PassLine.grow] at hgrow
  by_cases hfull : st.lbuf.max < st.pf_len + 1
  · rw [if_pos hfull] at hgrow
    rcases hblock : st.lbuf.grow a I2LINEBUFINC (st.pf_len + 1) with ⟨ok, lbuf⟩
    rw [hblock] at hgrow
    obtain ⟨rfl, rfl⟩ := Prod.mk.inj hgrow
    obtain ⟨hstarts, hroom⟩ := h.starts.of_grow (Nat.succ_pos 119) hblock
    exact ⟨hstarts, hlen, hlen, by show x.length < lbuf.max; omega⟩
  · rw [if_neg hfull] at hgrow
    obtain rfl := (Prod.mk.inj hgrow).2
    have hp := h.p
    exact ⟨h.starts, by omega, hlen, by omega⟩

theorem finish_eq_true (hsave : st.finish a = (true, st')) :
    ∃ st₁, st.grow a = (true, st₁) ∧ st' = { st₁ with lbuf := st₁.lbuf.put st₁.p 0 } := by
  rw [finish] at hsave
  rcases hgrow : st.grow a with ⟨_ | _, st₁⟩
  · rw [hgrow] at hsave
    cases hsave
  · rw [hgrow] at hsave
    exact ⟨st₁, rfl, (Prod.mk.inj hsave).2.symm⟩

theorem saveAll_cons_eq_true {c : UInt8} (hsave : st.saveAll a (c :: t) = (true, st')) :
    ∃ st₁, st.grow a = (true, st₁) ∧ (st₁.save c).saveAll a t = (true, st') := by
  rw [saveAll] at hsave
  rcases hgrow : st.grow a with ⟨_ | _, st₁⟩
  · rw [hgrow] at hsave
    cases hsave
  · rw [hgrow] at hsave
    exact ⟨st₁, rfl, hsave⟩

/-- What a successful attempt leaves: the text with its NUL, and room for what is counted. -/
structure Saved (st : PassLine) (x : List UInt8) (n : ℕ) : Prop where
  starts : st.lbuf.Starts (x ++ [0])
  pf_len : st.pf_len = n
  room : n < st.lbuf.max

theorem Ready.saved (h : st.Ready x) (hsave : st.saveAll a t = (true, st')) :
    st'.Saved (x ++ t) (x.length + t.length) := by
  induction t generalizing st x with
  | nil =>
      obtain ⟨st₁, hgrow, rfl⟩ := finish_eq_true hsave
      obtain ⟨hstarts, hp, hlen, hroom⟩ := h.grow hgrow
      rw [List.append_nil]
      refine ⟨?_, hlen, ?_⟩
      · show (st₁.lbuf.put st₁.p 0).Starts _
        rw [hp]
        exact hstarts.push hroom 0
      · show x.length < (st₁.lbuf.put st₁.p 0).max
        rw [Growing.Block.put_max]
        exact hroom
  | cons c t ih =>
      obtain ⟨st₁, hgrow, hrest⟩ := saveAll_cons_eq_true hsave
      obtain ⟨hstarts, hp, hlen, hroom⟩ := h.grow hgrow
      have hready : (st₁.save c).Ready (x ++ [c]) := by
        refine ⟨?_, ?_, .inl ?_⟩
        · show (st₁.lbuf.put st₁.p c).Starts _
          rw [hp]
          exact hstarts.push hroom c
        · show st₁.pf_len + 1 = _
          rw [List.length_append, hlen]
          rfl
        · show st₁.p + 1 = _
          rw [List.length_append, hp]
          rfl
      have hall := ih hready hrest
      rwa [List.append_assoc, List.length_append, List.length_singleton, Nat.add_assoc,
        Nat.add_comm 1, ← List.length_cons (a := c)] at hall

/-- While there is room for what is counted, the bytes overwrite those in the buffer. -/
theorem saveAll_room {b : Lbuf} {y z t' : List UInt8} {n : ℕ} (hcells : b.cells = x ++ (y ++ z))
    (hy : y.length = t.length) (hsound : b.Sound) (hp : x.length ≤ n)
    (hroom : n + t.length ≤ b.max) :
    saveAll a ⟨b, x.length, n⟩ (t ++ t') =
      saveAll a ⟨{ b with cells := x ++ t ++ z }, x.length + t.length, n + t.length⟩ t' := by
  induction t generalizing b x y n with
  | nil =>
      obtain rfl := List.length_eq_zero_iff.mp hy
      rw [List.nil_append, List.append_nil, ← List.nil_append z, ← hcells]
      rfl
  | cons c t ih =>
      obtain ⟨d, y, rfl⟩ := List.exists_cons_of_length_eq_add_one hy
      rw [List.length_cons, List.length_cons, Nat.add_right_cancel_iff] at hy
      rw [List.length_cons] at hroom
      have hmax := hsound.max_le
      have hgrow : PassLine.grow a ⟨b, x.length, n⟩ = (true, ⟨b, x.length, n⟩) :=
        if_neg (by show ¬b.max < n + 1; omega)
      have hput : b.put x.length c = { b with cells := x ++ [c] ++ (y ++ z) } := by
        rw [Growing.Block.put, if_pos ⟨by omega, by omega⟩, hcells,
          List.set_append_right _ _ le_rfl, Nat.sub_self, List.append_assoc]
        rfl
      have hlen : (x ++ [c]).length = x.length + 1 := by
        rw [List.length_append]
        rfl
      have hsound' : (b.put x.length c).Sound := by
        refine ⟨?_, by rw [hput]; exact hsound.no_overrun⟩
        rw [hput, hcells] at *
        simp only [List.length_append, List.length_cons, List.length_nil] at hmax ⊢
        omega
      have hrest := @ih (x ++ [c]) (b.put x.length c) y (n + 1) (by rw [hput]) hy hsound'
        (by omega) (by rw [Growing.Block.put_max]; omega)
      rw [List.cons_append, saveAll, hgrow]
      show saveAll a ⟨b.put x.length c, x.length + 1, n + 1⟩ (t ++ t') = _
      rw [← hlen, hrest, hput, List.append_assoc x [c] t, hlen, List.length_cons, Nat.add_assoc,
        Nat.add_assoc, Nat.add_comm 1]
      rfl

/-- The buffer does not grow, and the NUL has room as well. -/
theorem saveAll_saved_of_room {b : Lbuf} {n : ℕ} (hb : b.Sound) (hroom : n + t.length < b.max)
    (hsave : saveAll a ⟨b, 0, n⟩ t = (true, st')) : st'.Saved t (n + t.length) := by
  have hmax := hb.max_le
  have hsplit : b.cells = [] ++ (b.cells.take t.length ++ b.cells.drop t.length) := by
    rw [List.nil_append, List.take_append_drop]
  have hall := @saveAll_room a [] t b _ _ [] n hsplit (by rw [List.length_take]; omega) hb
    (Nat.zero_le n) (by omega)
  rw [List.append_nil, List.nil_append, List.length_nil, Nat.zero_add] at hall
  rw [hall] at hsave
  obtain ⟨st₁, hgrow, rfl⟩ := finish_eq_true hsave
  rw [PassLine.grow, if_neg (by show ¬b.max < n + t.length + 1; omega)] at hgrow
  obtain rfl := (Prod.mk.inj hgrow).2
  have hstarts : Growing.Block.Starts { b with cells := t ++ b.cells.drop t.length } t := by
    refine ⟨⟨?_, hb.no_overrun⟩, List.prefix_append _ _, by show t.length ≤ b.max; omega⟩
    simp only [List.length_append, List.length_drop]
    omega
  refine ⟨hstarts.push (by show t.length < b.max; omega) 0, rfl, ?_⟩
  show n + t.length < (Growing.Block.put _ t.length 0).max
  rw [Growing.Block.put_max]
  exact hroom

/-- When the count reaches the size the buffer grows, and the old bytes from the place of the
next one on stay where they are. -/
theorem saveAll_saved_of_full {b : Lbuf} {n : ℕ} (hb : b.Sound) (hn : n ≤ b.max)
    (hfull : ¬n + t.length < b.max) (hsave : saveAll a ⟨b, 0, n⟩ t = (true, st')) :
    st'.Saved (t.take (b.max - n) ++ (b.cells.take b.max).drop (b.max - n) ++ t.drop (b.max - n))
      (n + t.length) := by
  have hmax := hb.max_le
  have hlen : (t.take (b.max - n)).length = b.max - n := by
    rw [List.length_take]
    omega
  have hsplit : b.cells = [] ++ (b.cells.take (b.max - n) ++ b.cells.drop (b.max - n)) := by
    rw [List.nil_append, List.take_append_drop]
  have hall := @saveAll_room a [] (t.take (b.max - n)) b _ _ (t.drop (b.max - n)) n hsplit
    (by rw [List.length_take, hlen]; omega) hb (Nat.zero_le n) (by omega)
  rw [List.take_append_drop, List.nil_append, List.length_nil, Nat.zero_add, hlen,
    Nat.add_sub_cancel' hn] at hall
  rw [hall] at hsave
  have hold : ((b.cells.take b.max).drop (b.max - n)).length = n := by
    rw [List.length_drop, List.length_take]
    omega
  have hready : Ready ⟨{ b with cells := t.take (b.max - n) ++ b.cells.drop (b.max - n) },
      b.max - n, b.max⟩ (t.take (b.max - n) ++ (b.cells.take b.max).drop (b.max - n)) := by
    have hfull : b.max =
        (t.take (b.max - n) ++ (b.cells.take b.max).drop (b.max - n)).length := by
      rw [List.length_append, hlen, hold]
      omega
    refine ⟨⟨⟨?_, hb.no_overrun⟩, ?_, Nat.le_of_eq hfull.symm⟩, hfull, .inr hfull⟩
    · simp only [List.length_append, List.length_drop, hlen]
      omega
    · exact (List.prefix_append_right_inj _).mpr ((List.take_prefix _ _).drop _)
  have hsaved := hready.saved hsave
  have hcount : (t.take (b.max - n) ++ (b.cells.take b.max).drop (b.max - n)).length +
      (t.drop (b.max - n)).length = n + t.length := by
    rw [List.length_append, hlen, hold, List.length_drop]
    omega
  rwa [hcount] at hsaved

/-- What stands in the buffer behind a text, when `n` of its `max` bytes are counted
already: where the buffer grows, the old bytes between the two counts stay in the middle. -/
def pieced (old : List UInt8) (max n : ℕ) (t : List UInt8) : List UInt8 :=
  if n + t.length < max then t
  else t.take (max - n) ++ (old.take max).drop (max - n) ++ t.drop (max - n)

theorem saveAll_saved {b : Lbuf} {n : ℕ} (hb : b.Sound) (hn : n ≤ b.max)
    (hsave : saveAll a ⟨b, 0, n⟩ t = (true, st')) :
    st'.Saved (pieced b.cells b.max n t) (n + t.length) := by
  rw [pieced]
  split
  · rename_i hroom
    exact saveAll_saved_of_room hb hroom hsave
  · rename_i hfull
    exact saveAll_saved_of_full hb hn hfull hsave

theorem Saved.str {n : ℕ} (h : st.Saved x n) : cstr st.lbuf.cells = cstr x := by
  obtain ⟨rest, hrest⟩ := h.starts.isPrefix
  rw [← hrest, List.append_assoc]
  exact cstr_append_end x rest

end PassLine

/-- The old bytes in the middle do not show: there are none, the buffer has room for all that
is counted, or they continue the text by chance, and end it. -/
def MiddleHidden (old : List UInt8) (max n : ℕ) (t : List UInt8) : Prop :=
  n = 0 ∨ (cstr t).length + n < max ∨
    (cstr t).drop (max - n) ++ [0] <+: (old.take max).drop (max - n)

/-- A text in front of another one has the same string if it has its NUL where the string
of the other one ends. -/
theorem cstr_append_eq_iff {m s : List UInt8} (hm : m ≠ []) :
    cstr (m ++ s) = cstr s ↔ cstr s ++ [0] <+: m := by
  constructor
  · intro heq
    by_cases hzero : 0 ∈ m
    · rw [cstr_append_of_mem hzero] at heq
      obtain ⟨rest, hrest⟩ := exists_eq_cstr_append hzero
      exact ⟨rest, by rw [← heq, List.append_assoc]; exact hrest.symm⟩
    · rw [cstr_append hzero] at heq
      exact absurd (List.append_left_eq_self.mp heq) hm
  · rintro ⟨rest, rfl⟩
    rw [List.append_assoc, List.append_assoc]
    exact cstr_append_nul (cstr_no_nul s) _

theorem cstr_pieced_iff {old t : List UInt8} {max n : ℕ} (hn : n ≤ max) (hold : max ≤ old.length) :
    cstr (PassLine.pieced old max n t) = cstr t ↔ MiddleHidden old max n t := by
  have hshort : (cstr t).length ≤ t.length := (List.takeWhile_sublist _).length_le
  have hmiddle : ((old.take max).drop (max - n)).length = n := by
    rw [List.length_drop, List.length_take]
    omega
  rw [PassLine.pieced, MiddleHidden]
  by_cases hroom : n + t.length < max
  · rw [if_pos hroom]
    exact ⟨fun _ => .inr (.inl (by omega)), fun _ => rfl⟩
  · rw [if_neg hroom]
    have hlen : (t.take (max - n)).length = max - n := by
      rw [List.length_take]
      omega
    have hsplit := List.take_append_drop (max - n) t
    by_cases hzero : n = 0
    · have hnil : (old.take max).drop (max - n) = [] := by
        rw [← List.length_eq_zero_iff, hmiddle, hzero]
      rw [hnil, List.append_nil, hsplit]
      exact ⟨fun _ => .inl hzero, fun _ => rfl⟩
    · have hne : (old.take max).drop (max - n) ≠ [] := fun hnil => hzero (by
        rw [← hmiddle, hnil]
        rfl)
      by_cases hfirst : 0 ∈ t.take (max - n)
      · -- the string ends in front of the old bytes
        have hcut : cstr t = cstr (t.take (max - n)) := by
          rw [← hsplit, cstr_append_of_mem hfirst, hsplit]
        have hlt := cstr_length_lt hfirst
        rw [List.append_assoc, cstr_append_of_mem hfirst, hcut]
        exact ⟨fun _ => .inr (.inl (by omega)), fun _ => rfl⟩
      · have hrest : cstr t = t.take (max - n) ++ cstr (t.drop (max - n)) := by
          rw [← cstr_append hfirst, hsplit]
        have hdrop : (cstr t).drop (max - n) = cstr (t.drop (max - n)) := by
          rw [hrest, List.drop_left' hlen]
        have hlong : ¬(cstr t).length + n < max := by
          rw [hrest, List.length_append, hlen]
          omega
        rw [List.append_assoc, cstr_append hfirst, hrest, List.append_cancel_left_eq,
          cstr_append_eq_iff hne, ← hrest, hdrop]
        exact ⟨fun h => .inr (.inr h),
          fun h => (h.resolve_left hzero).resolve_left hlong⟩

/-! ### The attempts -/

section Attempts

variable {flags : UInt32} {a : Growing.Realloc UInt8} {st : PassLine} {w : Process}
  {att last : Attempt} {tries earlier : List Attempt} {lbuf : Lbuf} {r : AllocReturn}

/-- The counted bytes fit into the buffer. -/
structure PassLine.Counted (st : PassLine) : Prop where
  sound : st.lbuf.Sound
  pf_len : st.pf_len ≤ st.lbuf.max

theorem attempt_saved (h : st.Counted) (hread : (st.attempt flags a att).1 = true) :
    (st.attempt flags a att).2.Saved
      (PassLine.pieced st.lbuf.cells st.lbuf.max st.pf_len (att.text flags))
      (st.pf_len + (att.text flags).length) := by
  rcases hattempt : st.attempt flags a att with ⟨ok, st'⟩
  rw [hattempt] at hread
  obtain rfl : ok = true := hread
  rw [PassLine.attempt, PassLine.read_eq] at hattempt
  exact PassLine.saveAll_saved h.sound h.pf_len hattempt

theorem PassLine.Saved.counted {x : List UInt8} {n : ℕ} (h : st.Saved x n) : st.Counted where
  sound := h.starts.sound
  pf_len := by
    have hroom := h.room
    rw [h.pf_len]
    omega

theorem after_counted (h : st.Counted)
    (hwait : i2ReadPassPhraseAlloc.run flags a st earlier w = .waiting) :
    (st.after flags a earlier).Counted ∧
      (st.after flags a earlier).pf_len =
        st.pf_len + (earlier.map fun att => (att.text flags).length).sum := by
  induction earlier generalizing st w with
  | nil => exact ⟨h, rfl⟩
  | cons att earlier ih =>
      have hint := i2ReadPassPhraseAlloc.interrupted_of_waiting hwait
      rw [i2ReadPassPhraseAlloc.Interrupted.run_eq hint] at hwait
      have hsaved := attempt_saved h hint.read
      obtain ⟨hcounted, hlen⟩ := ih hsaved.counted hwait
      refine ⟨hcounted, hlen.trans ?_⟩
      rw [hsaved.pf_len, List.map_cons, List.sum_cons, Nat.add_assoc]

theorem run_last (hrun : i2ReadPassPhraseAlloc.run flags a st [last] w = .returned r)
    (hret : r.ret = true) :
    ¬last.lacksTty flags ∧ (st.attempt flags a last).1 = true ∧
      (w.attempt flags last).1 = .done ∧ last.failed = false ∧
        r.lbuf = (st.attempt flags a last).2.lbuf := by
  rcases i2ReadPassPhraseAlloc.returned_cases hrun with
    ⟨-, rfl⟩ | ⟨-, -, rfl⟩ | ⟨htty, hread, hnext, rfl⟩ | ⟨-, hmore⟩
  · cases hret
  · cases hret
  · exact ⟨htty, hread, hnext, by simpa using hret, rfl⟩
  · cases hmore

/-! ### The function with a buffer of fixed size -/

theorem set_end (x : List UInt8) {y : List UInt8} (hy : 0 < y.length) (c : UInt8) :
    ∃ z, (x ++ y).set x.length c = x ++ c :: z ∧ z.length + 1 = y.length := by
  obtain ⟨d, z, rfl⟩ := List.exists_cons_of_length_pos hy
  refine ⟨z, ?_, rfl⟩
  rw [List.set_append_right _ _ le_rfl, Nat.sub_self, List.set_cons_zero]

theorem i2ReadPassPhrase_read (flags : UInt32) (x y keys : List UInt8)
    (hroom : (keys.takeWhile fun ch => ch ≠ nl && ch ≠ cr).length < y.length) :
    ∃ z, i2ReadPassPhrase.read flags (x ++ y) x.length keys =
      x ++ (keys.takeWhile fun ch => ch ≠ nl && ch ≠ cr).map (saved flags) ++ 0 :: z := by
  induction keys generalizing x y with
  | nil =>
      obtain ⟨z, hz, -⟩ := set_end x hroom 0
      exact ⟨z, by rw [i2ReadPassPhrase.read, hz, List.takeWhile_nil, List.map_nil,
        List.append_nil]⟩
  | cons ch keys ih =>
      rw [i2ReadPassPhrase.read, List.takeWhile_cons]
      by_cases hend : ch = nl ∨ ch = cr
      · have hstop : (ch ≠ nl && ch ≠ cr) = false := by
          rcases hend with rfl | rfl <;> decide
        obtain ⟨z, hz, -⟩ := set_end x (Nat.zero_lt_of_lt hroom) 0
        rw [if_pos hend, hstop, if_neg Bool.false_ne_true, List.map_nil, List.append_nil]
        exact ⟨z, hz⟩
      · have hgo : (ch ≠ nl && ch ≠ cr) = true := by
          simpa [not_or] using hend
        rw [List.takeWhile_cons, hgo, if_pos rfl, List.length_cons] at hroom
        obtain ⟨y', hset, hlen⟩ := set_end x (Nat.zero_lt_of_lt hroom) (saved flags ch)
        obtain ⟨z, hz⟩ := ih (x ++ [saved flags ch]) y' (by omega)
        have hp : x.length < (x ++ y).length - 1 := by
          rw [List.length_append]
          omega
        rw [List.length_append, List.length_singleton, List.append_assoc,
          List.singleton_append] at hz
        rw [if_neg hend, if_pos hp, hset, hz, hgo, if_pos rfl, List.map_cons, List.append_assoc x]
        exact ⟨z, rfl⟩

theorem i2ReadPassPhrase_read_length (flags : UInt32) (buf : List UInt8) (p : ℕ)
    (keys : List UInt8) : (i2ReadPassPhrase.read flags buf p keys).length = buf.length := by
  induction keys generalizing buf p with
  | nil => exact List.length_set
  | cons ch keys ih =>
      rw [i2ReadPassPhrase.read]
      split_ifs
      · exact List.length_set
      · rw [ih, List.length_set]
      · exact ih buf p

/-- The process does not depend on the buffer, so both functions begin anew together. -/
theorem i2ReadPassPhrase_after (hwait : i2ReadPassPhraseAlloc.run flags a st earlier w = .waiting)
    {buf : List UInt8} (hbuf : 0 < buf.length) (tries : List Attempt) :
    ∃ buf', buf'.length = buf.length ∧ i2ReadPassPhrase flags buf (earlier ++ tries) w =
      i2ReadPassPhrase flags buf' tries (w.after flags earlier) := by
  induction earlier generalizing st w buf with
  | nil => exact ⟨buf, rfl, rfl⟩
  | cons att earlier ih =>
      have hint := i2ReadPassPhraseAlloc.interrupted_of_waiting hwait
      rw [i2ReadPassPhraseAlloc.Interrupted.run_eq hint] at hwait
      have hlen := i2ReadPassPhrase_read_length flags buf 0 att.keys
      obtain ⟨buf', hbuf', heq⟩ := ih hwait (hlen.symm ▸ hbuf)
      refine ⟨buf', hbuf'.trans hlen, Eq.trans ?_ heq⟩
      have hnext := hint.next
      rw [Process.attempt] at hnext
      rw [List.cons_append, i2ReadPassPhrase, if_neg (by omega), if_neg hint.tty]
      rcases hres : (Process.leave flags att w (w.enter flags att)).resend with ⟨next, w'⟩
      rw [hres] at hnext
      obtain rfl : next = .restart := hnext
      simp only [Process.attempt, hres]

theorem i2ReadPassPhrase_last {buf : List UInt8} (htty : ¬last.lacksTty flags)
    (hnext : (w.attempt flags last).1 = .done) (hfailed : last.failed = false)
    (hroom : (last.text flags).length < buf.length) :
    ∃ r, i2ReadPassPhrase flags buf [last] w = .returned r ∧ r.ret = true ∧
      cstr r.buf = cstr (last.text flags) := by
  rw [i2ReadPassPhrase, if_neg (by omega), if_neg htty]
  rw [Process.attempt] at hnext
  rcases hres : (Process.leave flags last w (w.enter flags last)).resend with ⟨next, w'⟩
  rw [hres] at hnext
  obtain rfl : next = .done := hnext
  refine ⟨_, rfl, by simp [hfailed], ?_⟩
  obtain ⟨z, hz⟩ := i2ReadPassPhrase_read flags [] buf last.keys (by
    rwa [Attempt.text, List.length_map] at hroom)
  have hread : i2ReadPassPhrase.read flags buf 0 last.keys = last.text flags ++ 0 :: z := hz
  show cstr (i2ReadPassPhrase.read flags buf 0 last.keys) = _
  rw [hread]
  exact cstr_append_end _ z

end Attempts

/-- The string of the last attempt is what `I2ReadPassPhrase` returns with any buffer that is
large enough, and what `I2ReadPassPhraseAlloc` returns if the old bytes do not show. -/
theorem passPhraseAlloc_iff {flags : UInt32} {a : Growing.Realloc UInt8} {lbuf : Lbuf}
    {w : Process} {earlier : List Attempt} {last : Attempt} {r : AllocReturn}
    (hsound : lbuf.Sound) (hwait : i2ReadPassPhraseAlloc flags a lbuf earlier w = .waiting)
    (hrun : i2ReadPassPhraseAlloc flags a lbuf (earlier ++ [last]) w = .returned r)
    (hret : r.ret = true) :
    (∀ buf, (last.text flags).length < buf.length →
      ∃ r', i2ReadPassPhrase flags buf (earlier ++ [last]) w = .returned r' ∧ r'.ret = true ∧
        cstr r'.buf = cstr (last.text flags)) ∧
    (cstr r.lbuf.cells = cstr (last.text flags) ↔
      let before := PassLine.after flags a ⟨lbuf, 0, 0⟩ earlier
      MiddleHidden before.lbuf.cells before.lbuf.max
        (earlier.map fun att => (att.text flags).length).sum (last.text flags)) := by
  rw [i2ReadPassPhraseAlloc] at hwait hrun
  rw [i2ReadPassPhraseAlloc.run_append hwait] at hrun
  obtain ⟨htty, hread, hnext, hfailed, hlbuf⟩ := run_last hrun hret
  have hstart : PassLine.Counted ⟨lbuf, 0, 0⟩ := ⟨hsound, Nat.zero_le _⟩
  obtain ⟨hcounted, hlen⟩ := after_counted hstart hwait
  rw [Nat.zero_add] at hlen
  constructor
  · intro buf hroom
    obtain ⟨buf', hbuf', heq⟩ := i2ReadPassPhrase_after hwait (Nat.zero_lt_of_lt hroom) [last]
    rw [heq]
    exact i2ReadPassPhrase_last htty hnext hfailed (by omega)
  · have hsaved := attempt_saved hcounted hread
    rw [hlbuf, hsaved.str, hlen]
    refine cstr_pieced_iff ?_ hcounted.sound.max_le
    rw [← hlen]
    exact hcounted.pf_len

def idle : Process := ⟨fun _ => none, fun _ => .SIG_DFL, [], none, []⟩

/-- A line that is typed at the terminal, or the bytes in front of a signal. -/
def typing (keys : List UInt8) (caught : Option Signal) : Attempt :=
  ⟨some 3, 0, true, keys, caught.isSome, caught, true⟩

def eightBytes : Lbuf := ⟨List.replicate 8 0, 8, false⟩

theorem passPhraseAlloc_iff_stopped :
    ∃ r, i2ReadPassPhraseAlloc 0 (.padding 0) eightBytes
        ([typing (ascii "ab") (some .SIGTSTP)] ++ [typing (ascii "abcde") none]) idle =
          .returned r ∧
      (cstr r.lbuf.cells = cstr ((typing (ascii "abcde") none).text 0) ↔
        MiddleHidden (PassLine.after 0 (.padding 0) ⟨eightBytes, 0, 0⟩
          [typing (ascii "ab") (some .SIGTSTP)]).lbuf.cells 8 2 (ascii "abcde")) :=
  ⟨_, rfl, (passPhraseAlloc_iff ⟨by decide, rfl⟩ rfl rfl rfl).2⟩

set_option maxRecDepth 4000 in
/-- Two bytes in front of the restart, and the end of the pass-phrase is lost. -/
theorem passPhraseAlloc_loses :
    (∃ r, i2ReadPassPhraseAlloc 0 (.padding 0) eightBytes
        ([typing (ascii "ab") (some .SIGTSTP)] ++ [typing (ascii "abcdefg") none]) idle =
          .returned r ∧ r.ret = true ∧ cstr r.lbuf.cells = ascii "abcdef") ∧
      ∃ r, i2ReadPassPhrase 0 (List.replicate 16 0)
        ([typing (ascii "ab") (some .SIGTSTP)] ++ [typing (ascii "abcdefg") none]) idle =
          .returned r ∧ r.ret = true ∧ cstr r.buf = ascii "abcdefg" :=
  ⟨⟨_, rfl, rfl, by decide⟩, _, rfl, rfl, by decide⟩

end I2util
