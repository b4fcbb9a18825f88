import I2util.Library.Printf
import I2util.Log.ErrText

/-!
The conversions that `vsnprintf` finds in the format that `esnprintf` has built.

The format of a call is that of `printf`, with `%M` and `%N`. What is written in their
place becomes part of a format too.
-/

namespace I2util

open Printf

def isModifier (c : UInt8) : Bool :=
  isdigit c || (ascii "-+ #'I.*$hlLqjztZ").contains c

def printfGrammar : Grammar UInt8 := ⟨37, isModifier⟩

abbrev FormatDirective := Directive UInt8

/-! ### What is written in the place of a directive -/

def replacement (msg : CText) (code : ℤ) : FormatDirective → Option (List UInt8)
  | .spec [] conv =>
      if conv = 77 then some msg.val else if conv = 78 then some (decimalInt code) else none
  | _ => none

/-- The directives in the place of one, when the texts are printed as they are. -/
def substitute (msg : CText) (code : ℤ) (d : FormatDirective) : List FormatDirective :=
  match replacement msg code d with
  | some text => text.map .char
  | none => [d]

/-- The format that was meant. -/
def substituted (msg : CText) (code : ℤ) (ds : List FormatDirective) : List FormatDirective :=
  ds.flatMap (substitute msg code)

/-- The pieces that `esnprintf` reads for a directive. -/
def directivePieces : FormatDirective → List FormatPiece
  | .char c => [.char c]
  | .spec [] conv => [if conv = 77 then .message else if conv = 78 then .number else .pair conv]
  | .spec (a :: mods) conv => .pair a :: (mods ++ [conv]).map .char

/-- Every text that is reached is printed: a length that is no `int` is an error of
`snprintf`. The cursor stands at `k`. -/
def PiecesPrinted (msg : CText) (code : ℤ) (size : ℕ) : ℤ → List FormatPiece → Prop
  | _, [] => True
  | k, p :: ps => k < size - 1 → (p.expand msg code).length ≤ 2147483647 ∧
      PiecesPrinted msg code size (k + p.advance msg code) ps

/-- With `room` bytes in front of the last one, every conversion ends in them, and every
text that begins in them ends there, has a length that is an `int`, and has no `%`. -/
def ConversionsFit (msg : CText) (code : ℤ) : ℕ → List FormatDirective → Prop
  | _, [] => True
  | room, d :: ds =>
      match replacement msg code d with
      | some text =>
          (0 < room → text.length ≤ room ∧ text.length ≤ 2147483647 ∧ 37 ∉ text) ∧
            ConversionsFit msg code (room - text.length) ds
      | none =>
          (d.conversion ≠ none → (d.source printfGrammar).length ≤ room) ∧
            ConversionsFit msg code (room - (d.source printfGrammar).length) ds

/-- The call writes in the array and every text it prints can be printed. In the array
`vsnprintf` finds the conversions of the format without `%M` and `%N`, and what it finds is
the beginning of what was meant. -/
structure ConversionsKept (strerror : ℤ → CText) (eh : Option ErrHandle) (size_buf : UInt64)
    (format : CText) (code : ℤ) (ds : List FormatDirective) : Prop where
  safe : (esnprintf strerror eh size_buf format code).Safe size_buf
  printed : PiecesPrinted (getError strerror eh code) code size_buf.toNat 0
    (formatPieces format.val)
  found : ∃ text found, (esnprintf strerror eh size_buf format code).text size_buf = some text ∧
    scan printfGrammar text = some found ∧
    found <+: substituted (getError strerror eh code) code ds ∧
    conversions found = (conversions ds).filter fun s => s ≠ ([], 77) ∧ s ≠ ([], 78)

variable {msg : CText} {code : ℤ} {size room k : ℕ} {d : FormatDirective}
  {ds : List FormatDirective} {p : FormatPiece} {ps qs : List FormatPiece} {text : List UInt8}

/-! ### The pieces of a directive -/

theorem formatPieces_chars {s : List UInt8} (hs : 37 ∉ s) (rest : List UInt8) :
    formatPieces (s ++ rest) = s.map .char ++ formatPieces rest := by
  induction s with
  | nil => rfl
  | cons c s ih =>
      obtain ⟨hc, hs⟩ := not_or.mp (List.mem_cons.not.mp hs)
      rw [List.cons_append, formatPieces_char (Ne.symm hc), ih hs]
      rfl

theorem not_modifier : isModifier 37 = false ∧ isModifier 77 = false ∧ isModifier 78 = false := by
  decide

theorem formatPieces_directive (hd : d.Ok printfGrammar) (rest : List UInt8) :
    formatPieces (d.source printfGrammar ++ rest) = directivePieces d ++ formatPieces rest := by
  cases d with
  | char c => exact formatPieces_char hd rest
  | spec mods conv =>
      obtain ⟨hmods, -, hpercent⟩ := hd
      cases mods with
      | nil => exact formatPieces_pair conv rest
      | cons a mods =>
          have hne : ∀ b ∈ a :: mods, ∀ c : UInt8, isModifier c = false → b ≠ c := by
            rintro b hb c hc rfl
            rw [show isModifier b = true from hmods b hb] at hc
            cases hc
          have ha := hne a List.mem_cons_self
          have hrest : 37 ∉ mods ++ [conv] := by
            intro hmem
            rcases List.mem_append.mp hmem with hmem | hmem
            · exact hne 37 (List.mem_cons_of_mem a hmem) 37 not_modifier.1 rfl
            · exact List.cons_ne_nil _ _ (hpercent (List.mem_singleton.mp hmem).symm)
          have hpair := formatPieces_pair a (mods ++ [conv] ++ rest)
          rw [if_neg (ha 77 not_modifier.2.1), if_neg (ha 78 not_modifier.2.2),
            formatPieces_chars hrest] at hpair
          exact hpair

theorem formatPieces_spell (hok : ∀ d ∈ ds, d.Ok printfGrammar) :
    formatPieces (spell printfGrammar ds) = ds.flatMap directivePieces := by
  induction ds with
  | nil => rfl
  | cons d ds ih =>
      rw [spell_cons, formatPieces_directive (hok d List.mem_cons_self),
        ih fun e he => hok e (List.mem_cons_of_mem d he)]
      rfl

theorem expand_chars (s : List UInt8) :
    (s.map FormatPiece.char).flatMap (FormatPiece.expand msg code) = s := by
  induction s with
  | nil => rfl
  | cons c s ih => exact congrArg (c :: ·) ih

/-- The text for a directive is what its pieces are expanded to. -/
theorem expand_pieces (d : FormatDirective) :
    (directivePieces d).flatMap (FormatPiece.expand msg code) =
      spell printfGrammar (substitute msg code d) := by
  cases d with
  | char c => rfl
  | spec mods conv =>
      cases mods with
      | nil =>
          rw [directivePieces, substitute, replacement, List.flatMap_singleton]
          split_ifs
          · exact (spell_chars printfGrammar msg.val).symm
          · exact (spell_chars printfGrammar (decimalInt code)).symm
          · rfl
      | cons a mods =>
          rw [directivePieces, List.flatMap_cons, expand_chars]
          show 37 :: a :: (mods ++ [conv]) = 37 :: (a :: mods ++ [conv]) ++ []
          rw [List.append_nil]
          rfl

theorem expand_all_pieces (ds : List FormatDirective) :
    (ds.flatMap directivePieces).flatMap (FormatPiece.expand msg code) =
      spell printfGrammar (substituted msg code ds) := by
  induction ds with
  | nil => rfl
  | cons d ds ih =>
      rw [List.flatMap_cons, List.flatMap_append, expand_pieces, ih, substituted, substituted,
        List.flatMap_cons, spell_append]

/-! ### The texts and the array -/

/-- Every piece that begins in front of the last byte is printed and ends there. -/
def TextsFit (msg : CText) (code : ℤ) (size : ℕ) : ℕ → List FormatPiece → Prop
  | _, [] => True
  | k, p :: ps => k < size - 1 → p ≠ .unpaired ∧ (p.expand msg code).length ≤ 2147483647 ∧
      k + (p.expand msg code).length ≤ size - 1 ∧
      TextsFit msg code size (k + (p.expand msg code).length) ps

theorem textsFit_iff (hsize : 1 ≤ size) :
    TextsFit msg code size k ps ↔
      PiecesFit msg code size k ps ∧ PiecesPrinted msg code size k ps := by
  induction ps generalizing k with
  | nil => exact ⟨fun _ => ⟨trivial, trivial⟩, fun _ => trivial⟩
  | cons p ps ih =>
      have hroom : (k : ℤ) < size - 1 ↔ k < size - 1 := by omega
      rw [TextsFit, PiecesFit, PiecesPrinted, hroom]
      by_cases hk : k < size - 1
      · simp only [hk, forall_const]
        by_cases hint : (p.expand msg code).length ≤ 2147483647
        · have hadvance : p.advance msg code = (p.expand msg code).length := if_pos hint
          rw [ih, hadvance, Int.natCast_add]
          constructor
          · rintro ⟨hp, -, hle, hfit, hprinted⟩
            exact ⟨⟨hp, by omega, by omega, hfit⟩, hint, hprinted⟩
          · rintro ⟨⟨hp, -, hle, hfit⟩, -, hprinted⟩
            exact ⟨hp, hint, by omega, hfit, hprinted⟩
        · exact ⟨fun h => absurd h.2.1 hint, fun h => absurd h.2.1 hint⟩
      · simp only [hk, false_implies, and_self]

theorem textsFit_append (hps : TextsFit msg code size k ps)
    (hqs : TextsFit msg code size (k + (ps.flatMap (FormatPiece.expand msg code)).length) qs) :
    TextsFit msg code size k (ps ++ qs) := by
  induction ps generalizing k with
  | nil => exact hqs
  | cons p ps ih =>
      intro hk
      obtain ⟨hp, hint, hle, hrest⟩ := hps hk
      refine ⟨hp, hint, hle, ih hrest ?_⟩
      rwa [List.flatMap_cons, List.length_append, ← Nat.add_assoc] at hqs

/-- Behind the pieces the rest fits too, if it begins in front of the last byte. -/
theorem TextsFit.drop (h : TextsFit msg code size k (ps ++ qs)) :
    TextsFit msg code size (k + (ps.flatMap (FormatPiece.expand msg code)).length) qs := by
  induction ps generalizing k with
  | nil => exact h
  | cons p ps ih =>
      rw [List.flatMap_cons, List.length_append, ← Nat.add_assoc]
      by_cases hk : k < size - 1
      · exact ih (h hk).2.2.2
      · cases qs with
        | nil => trivial
        | cons q qs => exact fun hlt => absurd hlt (by omega)

theorem textsFit_chars (s : List UInt8) : TextsFit msg code size k (s.map .char) := by
  induction s generalizing k with
  | nil => trivial
  | cons c s ih => exact fun hk => ⟨nofun, show 1 ≤ 2147483647 by decide, hk, ih⟩

/-- The text in the array, up to the last byte. -/
theorem esnprintf.Holds.texts {size : UInt64} {st : EsnBuf} {done : List UInt8}
    (h : Holds size done st) (hfit : TextsFit msg code size.toNat done.length ps) :
    Holds size (done ++ (ps.flatMap (FormatPiece.expand msg code)).take
      (size.toNat - 1 - done.length)) (turns msg code st ps).1 := by
  induction ps generalizing st done with
  | nil => simpa [turns] using h
  | cons p ps ih =>
      have hroom := h.room
      rw [turns]
      by_cases hmore : 1 < st.size_p2
      · have hlt := h.more_iff.mp hmore
        obtain ⟨hp, hint, hle, hrest⟩ := hfit (by omega)
        have hadvance : p.advance msg code = (p.expand msg code).length := if_pos hint
        have hturn : Holds size (grown msg code done p) (turn msg code st p) :=
          h.after_turn hp (by omega) (by omega)
        rw [grown, if_pos hint] at hturn
        rw [if_neg (not_not.mpr hmore), if_neg hp]
        rw [← List.length_append] at hrest
        have hall := ih hturn hrest
        rw [List.append_assoc, List.length_append, ← Nat.sub_sub] at hall
        rwa [List.flatMap_cons, List.take_append,
          List.take_of_length_le (show (p.expand msg code).length ≤ _ by omega)]
      · have hfull := mt h.more_iff.mpr hmore
        rw [if_pos hmore, show size.toNat - 1 - done.length = 0 by omega, List.take_zero,
          List.append_nil]
        exact h

/-! ### The conversions -/

theorem substitute_of_some (h : replacement msg code d = some text) :
    substitute msg code d = text.map .char := by
  rw [substitute, h]

theorem substitute_of_none (h : replacement msg code d = none) : substitute msg code d = [d] := by
  rw [substitute, h]

theorem substituted_cons (d : FormatDirective) (ds : List FormatDirective) :
    substituted msg code (d :: ds) = substitute msg code d ++ substituted msg code ds := by
  rw [substituted, List.flatMap_cons]
  rfl

theorem replacement_eq_none_iff :
    replacement msg code d = none ↔ d ≠ .spec [] 77 ∧ d ≠ .spec [] 78 := by
  cases d with
  | char c => exact ⟨fun _ => ⟨nofun, nofun⟩, fun _ => rfl⟩
  | spec mods conv =>
      cases mods with
      | nil =>
          rw [replacement]
          split_ifs with hM hN
          · simp [hM]
          · simp [hN]
          · simp [hM, hN]
      | cons a mods => exact ⟨fun _ => ⟨nofun, nofun⟩, fun _ => rfl⟩

/-- A directive that is replaced is `%M` or `%N`. -/
theorem eq_of_replacement (h : replacement msg code d = some text) :
    d = .spec [] 77 ∨ d = .spec [] 78 := by
  have hnot := mt replacement_eq_none_iff.mpr (by rw [h]; exact Option.some_ne_none text)
  rwa [not_and_or, not_not, not_not] at hnot

theorem replaced_piece (h : replacement msg code d = some text) :
    ∃ p, directivePieces d = [p] ∧ p.expand msg code = text ∧ p ≠ .unpaired := by
  rcases eq_of_replacement h with rfl | rfl
  · exact ⟨.message, rfl, Option.some.inj h, nofun⟩
  · exact ⟨.number, rfl, Option.some.inj h, nofun⟩

/-- The conversions that were meant are those of the format without `%M` and `%N`. -/
theorem conversions_substituted (ds : List FormatDirective) :
    conversions (substituted msg code ds) =
      (conversions ds).filter fun s => s ≠ ([], 77) ∧ s ≠ ([], 78) := by
  induction ds with
  | nil => rfl
  | cons d ds ih =>
      rw [substituted_cons, conversions_append, ih]
      cases hreplaced : replacement msg code d with
      | some text =>
          rw [substitute_of_some hreplaced, conversions_chars, List.nil_append]
          rcases eq_of_replacement hreplaced with rfl | rfl <;> rfl
      | none =>
          obtain ⟨hM, hN⟩ := replacement_eq_none_iff.mp hreplaced
          rw [substitute_of_none hreplaced]
          cases d with
          | char c => rfl
          | spec mods conv =>
              have hkept : decide ((mods, conv) ≠ ([], 77) ∧ (mods, conv) ≠ ([], 78)) = true := by
                apply decide_eq_true
                refine ⟨fun heq => hM ?_, fun heq => hN ?_⟩
                · obtain ⟨rfl, rfl⟩ := Prod.mk.inj heq
                  rfl
                · obtain ⟨rfl, rfl⟩ := Prod.mk.inj heq
                  rfl
              show (mods, conv) :: _ = ((mods, conv) :: conversions ds).filter _
              rw [List.filter_cons, if_pos hkept]
              rfl

/-- Without room nothing is left to ask for. -/
theorem conversionsFit_zero_iff :
    ConversionsFit msg code 0 ds ↔ conversions (substituted msg code ds) = [] := by
  induction ds with
  | nil => exact ⟨fun _ => rfl, fun _ => trivial⟩
  | cons d ds ih =>
      rw [ConversionsFit, substituted_cons, conversions_append]
      cases hreplaced : replacement msg code d with
      | some text =>
          rw [substitute_of_some hreplaced, conversions_chars, List.nil_append, ← ih]
          simp
      | none =>
          rw [substitute_of_none hreplaced]
          cases d with
          | char c =>
              have hnone : conversions [Directive.char c] = [] := rfl
              simpa [Directive.conversion, hnone] using ih
          | spec mods conv =>
              constructor
              · rintro ⟨hroom, -⟩
                exact absurd (hroom nofun) (by simp [Directive.source])
              · intro hnil
                cases hnil

/-- A part of the format that was meant: what is found in the first `room` characters. -/
structure Found (msg : CText) (code : ℤ) (room : ℕ) (ds found : List FormatDirective) : Prop where
  ok : ∀ d ∈ found, d.Ok printfGrammar
  text : spell printfGrammar found = (spell printfGrammar (substituted msg code ds)).take room
  begins : found <+: substituted msg code ds
  all : conversions found = conversions (substituted msg code ds)

theorem found_nil (msg : CText) (code : ℤ) (room : ℕ) : Found msg code room [] [] :=
  ⟨fun _ hd => absurd hd List.not_mem_nil, List.take_nil.symm, List.prefix_rfl, rfl⟩

theorem Found.append {front found : List FormatDirective}
    (hsub : substitute msg code d = front) (hok : ∀ d ∈ front, d.Ok printfGrammar)
    (hlen : (spell printfGrammar front).length ≤ room)
    (h : Found msg code (room - (spell printfGrammar front).length) ds found) :
    Found msg code room (d :: ds) (front ++ found) where
  ok := List.forall_mem_append.mpr ⟨hok, h.ok⟩
  text := by
    rw [substituted_cons, hsub, spell_append, spell_append, List.take_append,
      List.take_of_length_le hlen, h.text]
  begins := by
    rw [substituted_cons, hsub]
    exact (List.prefix_append_right_inj _).mpr h.begins
  all := by
    rw [substituted_cons, hsub, conversions_append, conversions_append, h.all]

/-- What is found behind the directives in front. -/
theorem Found.drop {front later : List FormatDirective}
    (h : Found msg code room (d :: ds) (front ++ later)) (hsub : substitute msg code d = front)
    (hlen : (spell printfGrammar front).length ≤ room) :
    Found msg code (room - (spell printfGrammar front).length) ds later where
  ok := fun e he => h.ok e (List.mem_append_right front he)
  text := by
    have htext := h.text
    rw [substituted_cons, hsub, spell_append, spell_append, List.take_append,
      List.take_of_length_le hlen] at htext
    exact List.append_cancel_left htext
  begins := by
    have hbegins := h.begins
    rw [substituted_cons, hsub] at hbegins
    exact (List.prefix_append_right_inj _).mp hbegins
  all := by
    have hall := h.all
    rw [substituted_cons, hsub, conversions_append, conversions_append] at hall
    exact List.append_cancel_left hall

/-- With what fits, the conversions are found. -/
theorem ConversionsFit.found (h : ConversionsFit msg code room ds)
    (hok : ∀ d ∈ ds, d.Ok printfGrammar) : ∃ found, Found msg code room ds found := by
  induction ds generalizing room with
  | nil => exact ⟨[], found_nil msg code room⟩
  | cons d ds ih =>
      cases room with
      | zero =>
          refine ⟨[], fun _ hd => absurd hd List.not_mem_nil, rfl, List.nil_prefix, ?_⟩
          exact (conversionsFit_zero_iff.mp h).symm
      | succ room =>
          have hds : ∀ d ∈ ds, d.Ok printfGrammar := fun e he => hok e (List.mem_cons_of_mem d he)
          rw [ConversionsFit] at h
          cases hreplaced : replacement msg code d with
          | some text =>
              rw [hreplaced] at h
              obtain ⟨htext, hrest⟩ := h
              obtain ⟨hle, -, hpercent⟩ := htext (Nat.succ_pos room)
              obtain ⟨found, hfound⟩ := ih hrest hds
              refine ⟨text.map .char ++ found, .append (substitute_of_some hreplaced) ?_ ?_ ?_⟩
              · intro e he
                obtain ⟨c, hc, rfl⟩ := List.mem_map.mp he
                exact fun heq : c = 37 => hpercent (heq ▸ hc)
              · rwa [spell_chars]
              · rwa [spell_chars]
          | none =>
              rw [hreplaced] at h
              obtain ⟨hend, hrest⟩ := h
              obtain ⟨found, hfound⟩ := ih hrest hds
              have hsource : spell printfGrammar [d] = d.source printfGrammar :=
                List.append_nil _
              refine ⟨[d] ++ found, .append (substitute_of_none hreplaced) ?_ ?_ ?_⟩
              · exact List.forall_mem_singleton.mpr (hok d List.mem_cons_self)
              · rw [hsource]
                cases d with
                | char c => exact Nat.succ_le_succ (Nat.zero_le room)
                | spec mods conv => exact hend nofun
              · rwa [hsource]

/-- Characters that are found where a text was meant are that text, without a `%`. -/
theorem chars_of_found {found rest : List FormatDirective} {tail : List UInt8}
    (hok : ∀ d ∈ found, d.Ok printfGrammar) (hspell : spell printfGrammar found = text ++ tail)
    (hbegins : found <+: text.map .char ++ rest) :
    37 ∉ text ∧ ∃ later, found = text.map .char ++ later := by
  induction text generalizing found with
  | nil => exact ⟨List.not_mem_nil, found, rfl⟩
  | cons c text ih =>
      cases found with
      | nil => cases hspell
      | cons d found =>
          obtain ⟨hd, hnext⟩ := List.cons_prefix_cons.mp hbegins
          obtain ⟨hdok, hfound⟩ := List.forall_mem_cons.mp hok
          subst hd
          have htail : spell printfGrammar found = text ++ tail := by
            simpa [Directive.source] using hspell
          obtain ⟨hpercent, later, rfl⟩ := ih hfound htail hnext
          exact ⟨List.not_mem_cons_of_ne_of_not_mem (Ne.symm hdok) hpercent, later, rfl⟩

/-- Where a text was meant and there is room for it, it is found. -/
theorem Found.text_front {found : List FormatDirective}
    (h : Found msg code room (d :: ds) found) (hreplaced : replacement msg code d = some text)
    (hfits : text.length ≤ room) : 37 ∉ text ∧ ∃ later, found = text.map .char ++ later := by
  have htext := h.text
  have hbegins := h.begins
  rw [substituted_cons, substitute_of_some hreplaced] at htext hbegins
  rw [spell_append, spell_chars, List.take_append, List.take_of_length_le hfits] at htext
  exact chars_of_found h.ok htext hbegins

/-- Where a directive was meant and there is any room, all of it is found. -/
theorem Found.directive_front {found : List FormatDirective}
    (h : Found msg code room (d :: ds) found) (hreplaced : replacement msg code d = none)
    (hroom : room ≠ 0) :
    (d.source printfGrammar).length ≤ room ∧ ∃ later, found = [d] ++ later := by
  have hlen := congrArg List.length h.text
  have hbegins := h.begins
  rw [substituted_cons, substitute_of_none hreplaced] at hlen hbegins
  rw [List.length_take, spell_append, List.length_append, spell_cons, spell_nil,
    List.append_nil] at hlen
  have hsource := List.length_pos_iff.mpr (d.source_ne_nil printfGrammar)
  cases found with
  | nil =>
      rw [spell_nil, List.length_nil] at hlen
      omega
  | cons e later =>
      obtain ⟨rfl, -⟩ := List.cons_prefix_cons.mp hbegins
      rw [spell_cons, List.length_append] at hlen
      exact ⟨by omega, later, rfl⟩

/-- Where the conversions are found, all that was reached fits. -/
theorem Found.fit {found : List FormatDirective} (h : Found msg code room ds found)
    (hk : k + room = size - 1) (htexts : TextsFit msg code size k (ds.flatMap directivePieces)) :
    ConversionsFit msg code room ds := by
  induction ds generalizing room k found with
  | nil => trivial
  | cons d ds ih =>
      by_cases hroom : room = 0
      · subst hroom
        have htext := h.text
        have hall := h.all
        rw [List.take_zero] at htext
        rw [spell_eq_nil htext] at hall
        exact conversionsFit_zero_iff.mpr hall.symm
      · rw [List.flatMap_cons] at htexts
        have hrest := htexts.drop
        rw [expand_pieces] at hrest
        rw [ConversionsFit]
        cases hreplaced : replacement msg code d with
        | some text =>
            obtain ⟨p, hp, hexpand, -⟩ := replaced_piece hreplaced
            rw [hp] at htexts
            obtain ⟨-, hint, hle, -⟩ := htexts (by omega)
            rw [hexpand] at hint hle
            have hfits : text.length ≤ room := by omega
            obtain ⟨hpercent, later, rfl⟩ := h.text_front hreplaced hfits
            have hlater := h.drop (substitute_of_some hreplaced) (by rwa [spell_chars])
            rw [substitute_of_some hreplaced, spell_chars] at hrest
            rw [spell_chars] at hlater
            exact ⟨fun _ => ⟨hfits, hint, hpercent⟩, ih hlater (by omega) hrest⟩
        | none =>
            have hsource : spell printfGrammar [d] = d.source printfGrammar := List.append_nil _
            obtain ⟨hfits, later, rfl⟩ := h.directive_front hreplaced hroom
            have hlater := h.drop (substitute_of_none hreplaced) (by rwa [hsource])
            rw [substitute_of_none hreplaced, hsource] at hrest
            rw [hsource] at hlater
            exact ⟨fun _ => hfits, ih hlater (by omega) hrest⟩

theorem textsFit_end (hk : size - 1 ≤ k) (ps : List FormatPiece) : TextsFit msg code size k ps := by
  cases ps with
  | nil => trivial
  | cons p ps => exact fun hlt => absurd hlt (by omega)

/-- The pieces of a directive that is not replaced. -/
theorem textsFit_directive (hnone : replacement msg code d = none)
    (hend : k + (d.source printfGrammar).length ≤ size - 1) :
    TextsFit msg code size k (directivePieces d) := by
  cases d with
  | char c => exact textsFit_chars [c]
  | spec mods conv =>
      have hlen : ((Directive.spec mods conv).source printfGrammar).length = mods.length + 2 := by
        simp [Directive.source]
      cases mods with
      | nil =>
          obtain ⟨hM, hN⟩ := replacement_eq_none_iff.mp hnone
          have hpair : directivePieces (.spec [] conv) = [.pair conv] := by
            rw [directivePieces, if_neg fun h => hM (by rw [h]), if_neg fun h => hN (by rw [h])]
          rw [hpair]
          exact fun _ => ⟨by simp, show 2 ≤ 2147483647 by decide, by rwa [hlen] at hend, trivial⟩
      | cons a mods =>
          refine fun _ => ⟨by simp, show 2 ≤ 2147483647 by decide, ?_, textsFit_chars _⟩
          rw [hlen, List.length_cons] at hend
          show k + 2 ≤ size - 1
          omega

theorem ConversionsFit.texts (h : ConversionsFit msg code room ds) (hk : k + room = size - 1) :
    TextsFit msg code size k (ds.flatMap directivePieces) := by
  induction ds generalizing room k with
  | nil => trivial
  | cons d ds ih =>
      by_cases hroom : room = 0
      · exact textsFit_end (by omega) _
      · rw [ConversionsFit] at h
        rw [List.flatMap_cons]
        cases hreplaced : replacement msg code d with
        | some text =>
            rw [hreplaced] at h
            obtain ⟨htext, hrest⟩ := h
            obtain ⟨hle, hint, -⟩ := htext (by omega)
            obtain ⟨p, hp, hexpand, hpaired⟩ := replaced_piece hreplaced
            apply textsFit_append
            · rw [hp]
              exact fun _ => ⟨hpaired, by rwa [hexpand], by rw [hexpand]; omega, trivial⟩
            · rw [expand_pieces, substitute_of_some hreplaced, spell_chars]
              exact ih hrest (by omega)
        | none =>
            rw [hreplaced] at h
            obtain ⟨hend, hrest⟩ := h
            have hfits : (d.source printfGrammar).length ≤ room := by
              cases d with
              | char c => exact Nat.pos_of_ne_zero hroom
              | spec mods conv => exact hend nofun
            apply textsFit_append
            · exact textsFit_directive hreplaced (by omega)
            · rw [expand_pieces, substitute_of_none hreplaced, spell_cons, spell_nil,
                List.append_nil]
              exact ih hrest (by omega)

/-! ### The call -/

section Call

variable (strerror : ℤ → CText) (eh : Option ErrHandle) {size_buf : UInt64} {format : CText}
  (code : ℤ) {ds : List FormatDirective}

/-- The text in the array is the one that was meant, as far as there is room. -/
theorem esnprintf_texts (hsize : 1 ≤ size_buf) (hvalid : scan printfGrammar format.val = some ds)
    (hfit : TextsFit (getError strerror eh code) code size_buf.toNat 0
      (formatPieces format.val)) :
    (esnprintf strerror eh size_buf format code).text size_buf =
      some ((spell printfGrammar (substituted (getError strerror eh code) code ds)).take
        (size_buf.toNat - 1)) := by
  obtain ⟨hok, hformat⟩ := scan_eq_some_iff.mp hvalid
  have hall := (esnprintf.holds_start hsize).texts hfit
  have hpieces : (formatPieces format.val).flatMap
      (FormatPiece.expand (getError strerror eh code) code) =
        spell printfGrammar (substituted (getError strerror eh code) code ds) := by
    rw [← hformat, formatPieces_spell hok, expand_all_pieces]
  have hread := hall.read
  rw [hpieces, List.nil_append, List.length_nil, Nat.sub_zero, cstr_of_not_mem] at hread
  · rw [esnprintf_eq]
    exact hread
  · intro hzero
    have hnul := expansion_no_nul (getError strerror eh code) code format
    rw [expansion, hpieces] at hnul
    exact hnul (List.mem_of_mem_take hzero)

/-- When the conversions that `vsnprintf` finds are those of the format. -/
theorem esnprintf_conversions_iff (size_buf : UInt64) (hsize : 1 ≤ size_buf) (format : CText)
    (ds : List FormatDirective) (hvalid : scan printfGrammar format.val = some ds) :
    ConversionsKept strerror eh size_buf format code ds ↔
      ConversionsFit (getError strerror eh code) code (size_buf.toNat - 1) ds := by
  have hone : 1 ≤ size_buf.toNat := UInt64.le_iff_toNat_le.mp hsize
  obtain ⟨hok, hformat⟩ := scan_eq_some_iff.mp hvalid
  have hpieces : formatPieces format.val = ds.flatMap directivePieces := by
    rw [← hformat, formatPieces_spell hok]
  constructor
  · rintro ⟨hsafe, hprinted, text, found, htext, hscan, hbegins, hall⟩
    have hfit := (textsFit_iff hone).mpr
      ⟨(esnprintf_safe_iff strerror eh format code hsize).mp hsafe, hprinted⟩
    rw [esnprintf_texts strerror eh code hsize hvalid hfit] at htext
    obtain ⟨hfound, hspell⟩ := scan_eq_some_iff.mp hscan
    rw [hpieces] at hfit
    exact Found.fit ⟨hfound, hspell.trans (Option.some.inj htext).symm, hbegins,
      hall.trans (conversions_substituted ds).symm⟩ (Nat.zero_add _) hfit
  · intro hconv
    have hfit : TextsFit (getError strerror eh code) code size_buf.toNat 0
        (formatPieces format.val) := by
      rw [hpieces]
      exact hconv.texts (Nat.zero_add _)
    obtain ⟨hpiecesFit, hprinted⟩ := (textsFit_iff hone).mp hfit
    obtain ⟨found, hfound⟩ := hconv.found hok
    refine ⟨(esnprintf_safe_iff strerror eh format code hsize).mpr hpiecesFit, hprinted, _, found,
      esnprintf_texts strerror eh code hsize hvalid hfit, ?_, hfound.begins,
      hfound.all.trans (conversions_substituted ds)⟩
    exact scan_eq_some_iff.mpr ⟨hfound.ok, hfound.text⟩

end Call

/-- A program's own message for the code 1001, behind those of the system. -/
def ownTable (s : CText) : ErrHandle :=
  (i2ErrList (i2ErrOpen fun _ => .empty) ⟨1001, [s], show 1 < 4294967296 by decide⟩).2

theorem esnprintf_conversions_iff_disk :
    ConversionsKept (fun _ => .empty) (ownTable ⟨ascii "disk full", by decide⟩) 10240
        ⟨ascii "%M: %ld%%", by decide⟩ 1001
        [.spec [] 77, .char 58, .char 32, .spec [108] 100, .spec [] 37] ↔
      ConversionsFit (getError (fun _ => .empty) (ownTable ⟨ascii "disk full", by decide⟩) 1001)
        1001 (UInt64.toNat 10240 - 1)
        [.spec [] 77, .char 58, .char 32, .spec [108] 100, .spec [] 37] :=
  esnprintf_conversions_iff (fun _ => .empty) (ownTable ⟨ascii "disk full", by decide⟩) 1001 10240
    (by decide) ⟨ascii "%M: %ld%%", by decide⟩
    [.spec [] 77, .char 58, .char 32, .spec [108] 100, .spec [] 37] (by decide)

/-- A message with a per cent sign: a conversion is found in it. -/
theorem esnprintf_added_conversion :
    let eh := ownTable ⟨ascii "100% full", by decide⟩
    let run := esnprintf (fun _ => .empty) eh 10240 ⟨ascii "%M", by decide⟩ 1001
    ErrHandle.Opened (fun _ => .empty) eh ∧ scan printfGrammar (ascii "%M") = some [.spec [] 77] ∧
      run.text 10240 = some (ascii "100% full") ∧
      (scan printfGrammar (ascii "100% full")).map conversions = some [([32], 102)] ∧
      ¬ConversionsKept (fun _ => .empty) eh 10240 ⟨ascii "%M", by decide⟩ 1001 [.spec [] 77] := by
  have htext : (esnprintf (fun _ => .empty) (ownTable ⟨ascii "100% full", by decide⟩) 10240
      ⟨ascii "%M", by decide⟩ 1001).text 10240 = some (ascii "100% full") := by decide
  have hscan : (scan printfGrammar (ascii "100% full")).map conversions = some [([32], 102)] := by
    decide
  refine ⟨.list .new _, by decide, htext, hscan, ?_⟩
  rintro ⟨-, -, text, found, htext', hfound, -, hall⟩
  obtain rfl := Option.some.inj (htext'.symm.trans htext)
  rw [hfound, Option.map_some, hall] at hscan
  exact absurd hscan (by decide)

end I2util
