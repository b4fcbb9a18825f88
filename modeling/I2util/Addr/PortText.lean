import I2util.Addr.Text
import I2util.Conf.Numbers

/-!
The texts that `readPort` takes for a port: a number at the beginning, whatever follows, and
what is left of it in an `int`.
-/

namespace I2util

/-- `v` is the number at the beginning of the text, as `strtol` looks for it. -/
inductive LeadingNumber : List UInt8 → ℤ → Prop
  | unsigned (ws plus ds rest) : (∀ c ∈ ws, isspace c = true) → plus = [] ∨ plus = [43] →
      ds ≠ [] → (∀ c ∈ ds, isdigit c = true) → Scan.Stops isdigit rest →
      LeadingNumber (ws ++ (plus ++ (ds ++ rest))) (digitsValue ds)
  | negative (ws ds rest) : (∀ c ∈ ws, isspace c = true) → ds ≠ [] →
      (∀ c ∈ ds, isdigit c = true) → Scan.Stops isdigit rest →
      LeadingNumber (ws ++ 45 :: (ds ++ rest)) (-(digitsValue ds : ℤ))

def asInt (v : ℤ) : ℤ :=
  (max (-9223372036854775808) (min 9223372036854775807 v)).bmod 4294967296

variable {s ws ds rest : List UInt8} {v : ℤ}

theorem stops_isspace_digits (hne : ds ≠ []) (hds : ∀ c ∈ ds, isdigit c = true) :
    Scan.Stops isspace (ds ++ rest) :=
  Scan.stops_append_of_all hne fun c hc => (digit_char (hds c hc)).1

theorem sign_digits (hne : ds ≠ []) (hds : ∀ c ∈ ds, isdigit c = true) :
    sign (ds ++ rest) = (false, ds ++ rest) := by
  obtain ⟨c, ds, rfl⟩ := List.exists_cons_of_ne_nil hne
  obtain ⟨-, hminus, hplus⟩ := digit_char (hds c List.mem_cons_self)
  rw [List.cons_append, sign]
  · exact fun t h => hminus (List.cons.inj h).1
  · exact fun t h => hplus (List.cons.inj h).1

theorem strtol_sign {t : List UInt8} {negative : Bool}
    (hsign : sign (s.dropWhile isspace) = (negative, t)) (hne : t.takeWhile isdigit ≠ []) :
    strtol s =
      (max (-9223372036854775808) (min 9223372036854775807
        (if negative then -(digitsValue (t.takeWhile isdigit) : ℤ)
          else digitsValue (t.takeWhile isdigit))), t.dropWhile isdigit) := by
  rw [strtol, hsign]
  exact if_neg hne

/-- `strtol` reads the number at the beginning, and something of the text. -/
theorem LeadingNumber.strtol (h : LeadingNumber s v) :
    ∃ rest, strtol s = (max (-9223372036854775808) (min 9223372036854775807 v), rest) ∧
      rest ≠ s := by
  have hread : ∀ ds rest : List UInt8, (∀ c ∈ ds, isdigit c = true) → Scan.Stops isdigit rest →
      (ds ++ rest).takeWhile isdigit = ds ∧ (ds ++ rest).dropWhile isdigit = rest :=
    fun ds rest hds hrest => ⟨Scan.takeWhile_append hds hrest, Scan.dropWhile_append hds hrest⟩
  have hshort : ∀ (front ds rest : List UInt8), ds ≠ [] → rest ≠ front ++ (ds ++ rest) :=
    fun front ds rest hne heq => by
      have hpos := List.length_pos_iff.mpr hne
      have hlen := congrArg List.length heq
      simp only [List.length_append] at hlen
      omega
  cases h with
  | unsigned ws plus ds rest hws hplus hne hds hrest =>
      have hstop : Scan.Stops isspace (plus ++ (ds ++ rest)) := by
        rcases hplus with rfl | rfl
        · rw [List.nil_append]
          exact stops_isspace_digits hne hds
        · exact Scan.stops_cons.mpr rfl
      have hsign : sign (plus ++ (ds ++ rest)) = (false, ds ++ rest) := by
        rcases hplus with rfl | rfl
        · rw [List.nil_append]
          exact sign_digits hne hds
        · rfl
      obtain ⟨htake, hdrop⟩ := hread ds rest hds hrest
      rw [← Scan.dropWhile_append hws hstop] at hsign
      refine ⟨rest, ?_, ?_⟩
      · rw [strtol_sign hsign (by rwa [htake]), htake, hdrop]
        rfl
      · rw [← List.append_assoc]
        exact hshort _ ds rest hne
  | negative ws ds rest hws hne hds hrest =>
      have hstop : Scan.Stops isspace (45 :: (ds ++ rest)) := Scan.stops_cons.mpr rfl
      have hsign : sign (45 :: (ds ++ rest)) = (true, ds ++ rest) := rfl
      obtain ⟨htake, hdrop⟩ := hread ds rest hds hrest
      rw [← Scan.dropWhile_append hws hstop] at hsign
      refine ⟨rest, ?_, ?_⟩
      · rw [strtol_sign hsign (by rwa [htake]), htake, hdrop]
        rfl
      · rw [List.append_cons]
        exact hshort _ ds rest hne

theorem sign_cases (u : List UInt8) :
    (∃ t, u = 45 :: t ∧ sign u = (true, t)) ∨
      ∃ plus t, (plus = [] ∨ plus = [43]) ∧ u = plus ++ t ∧ sign u = (false, t) := by
  rw [sign.eq_def]
  split
  · rename_i t
    exact .inl ⟨t, rfl, rfl⟩
  · rename_i t
    exact .inr ⟨[43], t, .inr rfl, rfl, rfl⟩
  · exact .inr ⟨[], u, .inl rfl, rfl, rfl⟩

/-- Where `strtol` reads anything, there is a number at the beginning. -/
theorem leadingNumber_of_strtol (h : (strtol s).2 ≠ s) : ∃ v, LeadingNumber s v := by
  have hsplit := @List.takeWhile_append_dropWhile _ isspace s
  have hws : ∀ c ∈ s.takeWhile isspace, isspace c = true := fun c => List.mem_takeWhile_imp
  -- without a digit behind the sign nothing is read
  have hdigits : ∀ negative t, sign (s.dropWhile isspace) = (negative, t) →
      t.takeWhile isdigit ≠ [] := fun negative t hsign hnil => h (by
    rw [strtol, hsign]
    simp only [hnil, if_true])
  have hds : ∀ t : List UInt8, ∀ c ∈ t.takeWhile isdigit, isdigit c = true := fun t c =>
    List.mem_takeWhile_imp
  rcases sign_cases (s.dropWhile isspace) with ⟨t, hu, hsign⟩ | ⟨plus, t, hplus, hu, hsign⟩
  · have hneg := LeadingNumber.negative _ _ _ hws (hdigits _ _ hsign) (hds t)
      (Scan.stops_dropWhile isdigit t)
    rw [List.takeWhile_append_dropWhile, ← hu, hsplit] at hneg
    exact ⟨_, hneg⟩
  · have hpos := LeadingNumber.unsigned _ plus _ _ hws hplus (hdigits _ _ hsign) (hds t)
      (Scan.stops_dropWhile isdigit t)
    rw [List.takeWhile_append_dropWhile, ← hu, hsplit] at hpos
    exact ⟨_, hpos⟩

theorem readPort_eq_some_iff {p : UInt16} :
    readPort s = some p ↔ ∃ v, LeadingNumber s v ∧ 0 ≤ asInt v ∧ asInt v ≤ 0xffff ∧
      p = UInt16.ofNat (asInt v).toNat := by
  constructor
  · intro hread
    have hne : (strtol s).2 ≠ s := fun heq => by
      rw [readPort] at hread
      simp only [heq, true_or, if_true, reduceCtorEq] at hread
    obtain ⟨v, hv⟩ := leadingNumber_of_strtol hne
    obtain ⟨rest, hstrtol, hrest⟩ := hv.strtol
    refine ⟨v, hv, ?_⟩
    rw [readPort, hstrtol] at hread
    simp only [hrest, false_or] at hread
    change (if asInt v < 0 ∨ 0xffff < asInt v then none else _) = _ at hread
    split at hread
    · cases hread
    · exact ⟨by omega, by omega, (Option.some.inj hread).symm⟩
  · rintro ⟨v, hv, hlow, hhigh, rfl⟩
    obtain ⟨rest, hstrtol, hrest⟩ := hv.strtol
    rw [readPort, hstrtol]
    simp only [hrest, false_or]
    change (if asInt v < 0 ∨ 0xffff < asInt v then none else _) = _
    rw [if_neg (by omega)]
    rfl

end I2util
