import I2util.Conf.Hex
import Mathlib.Algebra.Order.Group.Nat
import Mathlib.Logic.Function.Iterate
import Mathlib.Tactic.Common

/-!
`I2StrToNum` and `I2StrToByte`: numbers with a suffix letter.

The two functions differ in the step by which a case of the `switch` enlarges the
multiplier. A division by zero has no result.
-/

namespace I2util

/-- `strtoull` with the base 10: the number and the rest of the text, which is the whole
text where there is no number. -/
def strtoull (s : List UInt8) : UInt64 × List UInt8 :=
  let (negative, t) := sign (s.dropWhile isspace)
  let digits := t.takeWhile isdigit
  if digits = [] then (0, s)
  else if 18446744073709551615 < digitsValue digits then
    (18446744073709551615, t.dropWhile isdigit)
  else
    let v := UInt64.ofNat (digitsValue digits)
    (if negative then -v else v, t.dropWhile isdigit)

/-- What a call leaves behind: the value returned, what is stored in `*limnum`, and the
string, which the call ends in front of the suffix. -/
structure NumRead where
  rc : ℤ
  limnum : Option UInt64
  limstr : List UInt8
  deriving DecidableEq

/-- The `switch`: the case of the letter falls through all that follow it. -/
def multiplier (step : UInt64 → UInt64) (letter : UInt8) : Option UInt64 :=
  match (ascii "zeptgmk").dropWhile (· ≠ tolower letter) with
  | [] => none
  | cases => some (cases.foldl (fun mult _ => step mult) 1)

/-- The conversion of the digits, and the check of the product. -/
def scaleDigits (mult : UInt64) (limstr : List UInt8) : Option NumRead :=
  let (ret, endptr) := strtoull limstr
  if endptr ≠ [] then some ⟨-1, none, limstr⟩
  else if ret = 0 then some ⟨0, some 0, limstr⟩
  else
    let limnum := ret * mult
    -- the check divides by the multiplier
    if mult = 0 then none
    else some ⟨if limnum / mult ≠ ret then -1 else 0, some limnum, limstr⟩

def strToScaled (step : UInt64 → UInt64) (limstr : List UInt8) : Option NumRead :=
  let silen := (limstr.takeWhile isdigit).length
  match limstr.drop silen with
  | [] => scaleDigits 1 limstr
  | [letter] =>
      match multiplier step letter with
      | none => some ⟨-1, none, limstr⟩
      | some mult => scaleDigits mult (limstr.take silen)
  | _ :: _ :: _ => some ⟨-1, none, limstr⟩

def i2StrToNum (limstr : List UInt8) : Option NumRead := strToScaled (· * 1000) limstr

def i2StrToByte (limstr : List UInt8) : Option NumRead := strToScaled (· <<< 10) limstr

/-! ### The digits -/

def saturated (v : ℕ) : UInt64 := UInt64.ofNat (min v 18446744073709551615)

theorem saturated_toNat (v : ℕ) : (saturated v).toNat = min v 18446744073709551615 :=
  UInt64.toNat_ofNat_of_lt' (by simp only [UInt64.size]; omega)

theorem saturated_eq_zero {v : ℕ} : saturated v = 0 ↔ v = 0 := by
  rw [← UInt64.toNat_inj, saturated_toNat]
  show min v _ = 0 ↔ _
  omega

theorem digit_char {c : UInt8} (h : isdigit c = true) : isspace c = false ∧ c ≠ 45 ∧ c ≠ 43 := by
  revert c
  apply forall_uint8
  decide +kernel

theorem strtoull_digits {ds : List UInt8} (hds : ∀ c ∈ ds, isdigit c = true) :
    strtoull ds = (saturated (digitsValue ds), []) := by
  cases ds with
  | nil => rfl
  | cons c t =>
      obtain ⟨hspace, hminus, hplus⟩ := digit_char (hds c List.mem_cons_self)
      have hskip : (c :: t).dropWhile isspace = c :: t := by simp [hspace]
      have hsign : sign (c :: t) = (false, c :: t) := by
        rw [sign]
        · intro s heq
          exact hminus (List.cons.inj heq).1
        · intro s heq
          exact hplus (List.cons.inj heq).1
      simp only [strtoull, hskip, hsign, Scan.takeWhile_of_all hds, Scan.dropWhile_of_all hds]
      rw [if_neg (List.cons_ne_nil c t), saturated]
      by_cases hbig : 18446744073709551615 < digitsValue (c :: t)
      · rw [if_pos hbig, Nat.min_eq_right (by omega)]
        rfl
      · rw [if_neg hbig, Nat.min_eq_left (by omega)]
        rfl

/-- The check of a product by a division. -/
theorem mul_div_eq_iff {r m : UInt64} (hm : m ≠ 0) :
    r * m / m = r ↔ r.toNat * m.toNat < 18446744073709551616 := by
  have hpos : 0 < m.toNat := Nat.pos_of_ne_zero fun h => hm (UInt64.toNat_inj.mp h)
  rw [← UInt64.toNat_inj, UInt64.toNat_div, UInt64.toNat_mul]
  constructor
  · intro h
    by_contra hbig
    -- a product that wraps is divided to less than `r`
    have hlt : r.toNat * m.toNat % 2 ^ 64 < r.toNat * m.toNat :=
      (Nat.mod_lt _ (by decide)).trans_le (Nat.not_lt.mp hbig)
    have hquot : r.toNat * m.toNat % 2 ^ 64 / m.toNat < r.toNat :=
      Nat.div_lt_of_lt_mul (by rwa [Nat.mul_comm m.toNat])
    omega
  · intro h
    rw [Nat.mod_eq_of_lt h, Nat.mul_div_cancel _ hpos]

theorem scaleDigits_eq {ds : List UInt8} (hds : ∀ c ∈ ds, isdigit c = true) (mult : UInt64) :
    scaleDigits mult ds =
      if digitsValue ds = 0 then some ⟨0, some 0, ds⟩
      else if mult = 0 then none
      else some ⟨if (saturated (digitsValue ds)).toNat * mult.toNat < 18446744073709551616 then 0
        else -1, some (saturated (digitsValue ds) * mult), ds⟩ := by
  simp only [scaleDigits, strtoull_digits hds, ne_eq, not_true_eq_false, if_false,
    saturated_eq_zero]
  by_cases hzero : digitsValue ds = 0
  · rw [if_pos hzero, if_pos hzero]
  · rw [if_neg hzero, if_neg hzero]
    by_cases hmult : mult = 0
    · rw [if_pos hmult, if_pos hmult]
    · rw [if_neg hmult, if_neg hmult]
      simp only [mul_div_eq_iff hmult, ite_not]

/-- The product is exact, or refused, when the digits do not saturate, or saturate and the
multiplier makes the product too great. -/
theorem scaleDigits_exact {ds : List UInt8} (hds : ∀ c ∈ ds, isdigit c = true) {mult : UInt64}
    (hpos : 0 < mult.toNat)
    (hfits : digitsValue ds < 18446744073709551616 ∨ 2 ≤ mult.toNat) :
    ∃ r, scaleDigits mult ds = some r ∧
      (digitsValue ds * mult.toNat < 18446744073709551616 →
        r.rc = 0 ∧ r.limnum = some (UInt64.ofNat (digitsValue ds * mult.toNat))) ∧
      (18446744073709551616 ≤ digitsValue ds * mult.toNat → r.rc = -1) := by
  have hread := scaleDigits_eq hds mult
  have hne : mult ≠ 0 := by
    rintro rfl
    exact absurd hpos (by decide)
  have hsat := saturated_toNat (digitsValue ds)
  generalize digitsValue ds = v at *
  by_cases hzero : v = 0
  · subst hzero
    rw [if_pos rfl] at hread
    refine ⟨_, hread, fun _ => ⟨rfl, ?_⟩, fun h => ?_⟩
    · rw [Nat.zero_mul]
      rfl
    · rw [Nat.zero_mul] at h
      omega
  · rw [if_neg hzero, if_neg hne] at hread
    by_cases hbig : v < 18446744073709551616
    · rw [hsat, Nat.min_eq_left (by omega)] at hread
      refine ⟨_, hread, fun h => ⟨if_pos h, ?_⟩, fun h => if_neg (Nat.not_lt.mpr h)⟩
      have hprod : saturated v * mult = UInt64.ofNat (v * mult.toNat) := by
        rw [← UInt64.toNat_inj, UInt64.toNat_mul, hsat, Nat.min_eq_left (by omega),
          UInt64.toNat_ofNat']
      rw [hprod]
    · -- the greatest number overflows with any multiplier but 1
      have hgreat : 18446744073709551616 ≤ 18446744073709551615 * mult.toNat := by omega
      have hmul : v * 1 ≤ v * mult.toNat := Nat.mul_le_mul_left v hpos
      rw [hsat, Nat.min_eq_right (by omega), if_neg (Nat.not_lt.mpr hgreat)] at hread
      exact ⟨_, hread, fun h => by omega, fun _ => rfl⟩

/-- The same with a power as the multiplier. -/
theorem scaleDigits_power {ds : List UInt8} (hds : ∀ c ∈ ds, isdigit c = true) {mult : UInt64}
    {base n : ℕ} (hbase : 2 ≤ base) (hmult : mult.toNat = base ^ n)
    (hnone : n = 0 → digitsValue ds < 18446744073709551616) :
    ∃ r, scaleDigits mult ds = some r ∧
      (digitsValue ds * base ^ n < 18446744073709551616 →
        r.rc = 0 ∧ r.limnum = some (UInt64.ofNat (digitsValue ds * base ^ n))) ∧
      (18446744073709551616 ≤ digitsValue ds * base ^ n → r.rc = -1) := by
  have hpos : 0 < base ^ n := Nat.pow_pos (by omega)
  have hfits : digitsValue ds < 18446744073709551616 ∨ 2 ≤ base ^ n := by
    by_cases hzero : n = 0
    · exact .inl (hnone hzero)
    · have hpow := Nat.pow_le_pow_right (show 0 < base by omega) (show 1 ≤ n by omega)
      rw [Nat.pow_one] at hpow
      exact .inr (by omega)
  rw [← hmult] at hpos hfits ⊢
  exact scaleDigits_exact hds hpos hfits

/-- Without a suffix a number that saturates is not noticed. -/
theorem scaleDigits_one {ds : List UInt8} (hds : ∀ c ∈ ds, isdigit c = true)
    (hbig : 18446744073709551616 ≤ digitsValue ds) :
    scaleDigits 1 ds = some ⟨0, some 18446744073709551615, ds⟩ := by
  rw [scaleDigits_eq hds, if_neg (by omega), if_neg (by decide), saturated_toNat,
    Nat.min_eq_right (by omega), saturated, Nat.min_eq_right (by omega)]
  rfl

/-! ### The suffix -/

def suffixPower : List UInt8 → Option ℕ
  | [] => some 0
  | [letter] => ((ascii "kmgtpez").idxOf? (tolower letter)).map (· + 1)
  | _ :: _ :: _ => none

theorem suffixPower_letter {letter : UInt8} :
    (suffixPower [letter] = none ↔ (ascii "zeptgmk").dropWhile (· ≠ tolower letter) = []) ∧
      ∀ n ∈ suffixPower [letter], isdigit letter = false ∧ n ≤ 7 ∧
        n = ((ascii "zeptgmk").dropWhile (· ≠ tolower letter)).length := by
  revert letter
  apply forall_uint8
  decide +kernel

theorem multiplier_eq (step : UInt64 → UInt64) (letter : UInt8) :
    multiplier step letter = (suffixPower [letter]).map fun n => step^[n] 1 := by
  obtain ⟨hnone, hsome⟩ := @suffixPower_letter letter
  rw [multiplier]
  cases hpower : suffixPower [letter] with
  | none => rw [hnone.mp hpower, Option.map_none]
  | some n =>
      obtain ⟨-, -, hn⟩ := hsome n hpower
      split
      · rename_i hempty
        rw [hnone.mpr hempty] at hpower
        cases hpower
      · rw [List.foldl_const, ← hn, Option.map_some]

theorem suffixPower_le {sfx : List UInt8} {n : ℕ} (h : suffixPower sfx = some n) : n ≤ 7 := by
  match sfx, h with
  | [], h =>
      obtain rfl := Option.some.inj h
      omega
  | [letter], h => exact (suffixPower_letter.2 n h).2.1

theorem strToScaled_eq (step : UInt64 → UInt64) {ds sfx : List UInt8} {n : ℕ}
    (hds : ∀ c ∈ ds, isdigit c = true) (hsfx : suffixPower sfx = some n) :
    strToScaled step (ds ++ sfx) = scaleDigits (step^[n] 1) ds := by
  match sfx, hsfx with
  | [], hsfx =>
      obtain rfl := Option.some.inj hsfx
      rw [List.append_nil, strToScaled, Scan.takeWhile_of_all hds, List.drop_length]
      rfl
  | [letter], hsfx =>
      have hletter := (suffixPower_letter.2 n hsfx).1
      have hsilen : (ds ++ [letter]).takeWhile isdigit = ds :=
        Scan.takeWhile_append hds (by simpa using hletter)
      simp only [strToScaled, hsilen, List.drop_left, List.take_left, multiplier_eq, hsfx,
        Option.map_some]

/-! ### Decimal suffixes -/

/-- The exact number, when it is one of 64 bits, and otherwise an error. -/
def NumExact (ds sfx : List UInt8) (n : ℕ) : Prop :=
  ∃ r, i2StrToNum (ds ++ sfx) = some r ∧
    (digitsValue ds * 1000 ^ n < 18446744073709551616 →
      r.rc = 0 ∧ r.limnum = some (UInt64.ofNat (digitsValue ds * 1000 ^ n))) ∧
    (18446744073709551616 ≤ digitsValue ds * 1000 ^ n → r.rc = -1)

theorem multiplier_1000 {n : ℕ} (hn : n ≤ 7) :
    ((· * 1000)^[n] (1 : UInt64)).toNat = if n = 7 then 3875820019684212736 else 1000 ^ n := by
  have hall : ∀ k : Fin 8, ((· * 1000)^[k.1] (1 : UInt64)).toNat =
      if k.1 = 7 then 3875820019684212736 else 1000 ^ k.1 := by
    decide +kernel
  exact hall ⟨n, by omega⟩

/-- The multiplier of the last suffix is no power of 1000. -/
theorem numExact_seven {ds sfx : List UInt8} (hds : ∀ c ∈ ds, isdigit c = true)
    (hsfx : suffixPower sfx = some 7) :
    NumExact ds sfx 7 ↔ ¬(1 ≤ digitsValue ds ∧ digitsValue ds ≤ 4) := by
  have hmult := multiplier_1000 (Nat.le_refl 7)
  have hscaled : i2StrToNum (ds ++ sfx) = _ := strToScaled_eq (· * 1000) hds hsfx
  rw [if_pos rfl] at hmult
  obtain ⟨r, hr, hsmall, hgreat⟩ := scaleDigits_exact hds (by rw [hmult]; decide)
    (.inr (by rw [hmult]; decide))
  have hpower : 1000 ^ 7 = 1000000000000000000000 := rfl
  rw [hmult] at hsmall hgreat
  rw [NumExact, hscaled, hr, hpower]
  simp only [Option.some.injEq, exists_eq_left']
  constructor
  · rintro ⟨-, hover⟩ h
    have hzero := (hsmall (by omega)).1
    have hneg := hover (by omega)
    omega
  · intro hnot
    by_cases hzero : digitsValue ds = 0
    · rw [hzero] at hsmall ⊢
      exact ⟨fun _ => hsmall (by decide), fun h => by omega⟩
    · have hfive : 5 ≤ digitsValue ds := by
        by_contra hless
        exact hnot ⟨by omega, by omega⟩
      have hlarge : 18446744073709551616 ≤ digitsValue ds * 3875820019684212736 := by
        omega
      exact ⟨fun h => by omega, fun _ => hgreat hlarge⟩

theorem numExact_iff {ds sfx : List UInt8} {n : ℕ} (hds : ∀ c ∈ ds, isdigit c = true)
    (hsfx : suffixPower sfx = some n) :
    NumExact ds sfx n ↔ ¬(n = 0 ∧ 18446744073709551616 ≤ digitsValue ds) ∧
      ¬(n = 7 ∧ 1 ≤ digitsValue ds ∧ digitsValue ds ≤ 4) := by
  have hmult := multiplier_1000 (suffixPower_le hsfx)
  have hscaled : i2StrToNum (ds ++ sfx) = _ := strToScaled_eq (· * 1000) hds hsfx
  by_cases hlost : n = 0 ∧ 18446744073709551616 ≤ digitsValue ds
  · -- the digits saturate
    refine iff_of_false ?_ fun h => h.1 hlost
    obtain ⟨rfl, hbig⟩ := hlost
    have hread := hscaled.trans (scaleDigits_one hds hbig)
    rintro ⟨r, hr, -, hover⟩
    obtain rfl := Option.some.inj (hread.symm.trans hr)
    exact absurd (hover (by omega)) (by simp)
  · by_cases hseven : n = 7
    · subst hseven
      simp [numExact_seven hds hsfx]
    · rw [if_neg hseven] at hmult
      refine iff_of_true ?_ ⟨hlost, fun h => hseven h.1⟩
      rw [NumExact, hscaled]
      exact scaleDigits_power hds (by decide) hmult fun hzero =>
        Nat.not_le.mp fun hbig => hlost ⟨hzero, hbig⟩

theorem numExact_kilo : NumExact (ascii "64") (ascii "K") 1 :=
  (numExact_iff (by decide) rfl).mpr
    ⟨fun h => absurd h.1 (by decide), fun h => absurd h.1 (by decide)⟩

/-- The greatest suffix wraps for the digit 1. -/
theorem not_numExact_z : ¬NumExact (ascii "1") (ascii "z") 7 := by
  rintro ⟨r, hr, -, hover⟩
  have hread : i2StrToNum (ascii "1" ++ ascii "z") =
      some ⟨0, some 3875820019684212736, ascii "1"⟩ := by decide
  obtain rfl := Option.some.inj (hread.symm.trans hr)
  exact absurd (hover (by decide)) (by decide)

/-! ### Binary suffixes -/

/-- There is no division by zero, and 0 is returned only with the exact number. -/
def ByteExact (limstr : List UInt8) : Prop :=
  (∃ r, i2StrToByte limstr = some r) ∧
    ∀ ds sfx n, (∀ c ∈ ds, isdigit c = true) → suffixPower sfx = some n → limstr = ds ++ sfx →
      ∀ r, i2StrToByte limstr = some r → r.rc = 0 →
        ∃ num, r.limnum = some num ∧ num.toNat = digitsValue ds * 1024 ^ n

/-- The number in front of the last suffix is 0, and one without a suffix has 64 bits. -/
def BytesFit (limstr : List UInt8) : Prop :=
  ∀ ds sfx n, (∀ c ∈ ds, isdigit c = true) → suffixPower sfx = some n → limstr = ds ++ sfx →
    (n = 7 → digitsValue ds = 0) ∧ (n = 0 → digitsValue ds < 18446744073709551616)

theorem multiplier_1024 {n : ℕ} (hn : n ≤ 7) :
    ((fun mult : UInt64 => mult <<< 10)^[n] 1).toNat = if n = 7 then 0 else 1024 ^ n := by
  have hall : ∀ k : Fin 8, ((fun mult : UInt64 => mult <<< 10)^[k.1] 1).toNat =
      if k.1 = 7 then 0 else 1024 ^ k.1 := by
    decide +kernel
  exact hall ⟨n, by omega⟩

/-- Any string is a number with a suffix, or refused. -/
theorem strToScaled_cases (step : UInt64 → UInt64) (limstr : List UInt8) :
    (∃ ds sfx n, (∀ c ∈ ds, isdigit c = true) ∧ suffixPower sfx = some n ∧ limstr = ds ++ sfx) ∨
      strToScaled step limstr = some ⟨-1, none, limstr⟩ := by
  have hds : ∀ c ∈ limstr.takeWhile isdigit, isdigit c = true := fun c hc =>
    List.mem_takeWhile_imp hc
  have hsplit := @List.takeWhile_append_dropWhile _ isdigit limstr
  generalize limstr.takeWhile isdigit = ds at hds hsplit
  generalize hsfx : limstr.dropWhile isdigit = sfx at hsplit
  have hstops : Scan.Stops isdigit sfx := hsfx ▸ Scan.stops_dropWhile isdigit limstr
  rw [← hsplit]
  cases hpower : suffixPower sfx with
  | some n => exact .inl ⟨ds, sfx, n, hds, hpower, rfl⟩
  | none =>
      right
      have hsilen : (ds ++ sfx).takeWhile isdigit = ds := Scan.takeWhile_append hds hstops
      simp only [strToScaled, hsilen, List.drop_left]
      match sfx, hpower with
      | [letter], hpower => simp only [multiplier_eq, hpower, Option.map_none]
      | _ :: _ :: _, _ => rfl

theorem i2StrToByte_exact {ds sfx : List UInt8} {n : ℕ} (hds : ∀ c ∈ ds, isdigit c = true)
    (hsfx : suffixPower sfx = some n) (hlast : n = 7 → digitsValue ds = 0)
    (hnone : n = 0 → digitsValue ds < 18446744073709551616) :
    ∃ r, i2StrToByte (ds ++ sfx) = some r ∧ (r.rc = 0 →
      ∃ num, r.limnum = some num ∧ num.toNat = digitsValue ds * 1024 ^ n) := by
  have hmult := multiplier_1024 (suffixPower_le hsfx)
  have hscaled : i2StrToByte (ds ++ sfx) = _ := strToScaled_eq (· <<< 10) hds hsfx
  rw [hscaled]
  by_cases hseven : n = 7
  · have hzero := hlast hseven
    rw [scaleDigits_eq hds, if_pos hzero, hzero, Nat.zero_mul]
    exact ⟨_, rfl, fun _ => ⟨0, rfl, rfl⟩⟩
  · rw [if_neg hseven] at hmult
    obtain ⟨r, hr, hsmall, hgreat⟩ := scaleDigits_power hds (by decide) hmult hnone
    refine ⟨r, hr, fun hrc => ?_⟩
    have hlt : ¬18446744073709551616 ≤ _ := fun h => by
      have hneg := hgreat h
      omega
    refine ⟨_, (hsmall (Nat.not_le.mp hlt)).2, ?_⟩
    exact UInt64.toNat_ofNat_of_lt' (Nat.not_le.mp hlt)

theorem byteExact_iff (limstr : List UInt8) : ByteExact limstr ↔ BytesFit limstr := by
  constructor
  · rintro ⟨⟨r, hr⟩, hexact⟩ ds sfx n hds hsfx rfl
    have hmult := multiplier_1024 (suffixPower_le hsfx)
    have hscaled : i2StrToByte (ds ++ sfx) = _ := strToScaled_eq (· <<< 10) hds hsfx
    constructor
    · rintro rfl
      by_contra hzero
      rw [if_pos rfl] at hmult
      rw [scaleDigits_eq hds, if_neg hzero, if_pos (UInt64.toNat_inj.mp hmult)] at hscaled
      rw [hscaled] at hr
      cases hr
    · rintro rfl
      by_contra hbig
      have hread := hscaled.trans (scaleDigits_one hds (Nat.not_lt.mp hbig))
      obtain ⟨num, -, hvalue⟩ := hexact ds sfx 0 hds hsfx rfl _ hread rfl
      have hlt := num.toNat_lt
      rw [hvalue] at hlt
      omega
  · intro hfit
    constructor
    · rcases strToScaled_cases (· <<< 10) limstr with ⟨ds, sfx, n, hds, hsfx, rfl⟩ | hread
      · obtain ⟨hlast, hnone⟩ := hfit ds sfx n hds hsfx rfl
        obtain ⟨r, hr, -⟩ := i2StrToByte_exact hds hsfx hlast hnone
        exact ⟨r, hr⟩
      · exact ⟨_, hread⟩
    · rintro ds sfx n hds hsfx rfl r hr hrc
      obtain ⟨hlast, hnone⟩ := hfit ds sfx n hds hsfx rfl
      obtain ⟨r', hr', hexact⟩ := i2StrToByte_exact hds hsfx hlast hnone
      obtain rfl := Option.some.inj (hr.symm.trans hr')
      exact hexact hrc

/-- The check of "1z" divides by zero. -/
theorem not_byteExact_z : ¬ByteExact (ascii "1z") := by
  rintro ⟨⟨r, hr⟩, -⟩
  have hnone : i2StrToByte (ascii "1z") = none := by decide
  rw [hnone] at hr
  cases hr

end I2util
