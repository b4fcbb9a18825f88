import Mathlib.Data.Nat.Notation
import Mathlib.Data.Option.Basic

/-!
The conversion specifications in the format of a function like `printf`.

A specification begins with a per cent sign and goes on, through flags, numbers and length
modifiers, to the first character that is none of these. A text without an unfinished
specification has exactly one list of directives that spells it.
-/

namespace Printf

variable {α : Type*}

structure Grammar (α : Type*) where
  percent : α
  modifier : α → Bool

inductive Directive (α : Type*)
  | char (c : α)
  | spec (mods : List α) (conv : α)
  deriving DecidableEq

namespace Directive

def source (g : Grammar α) : Directive α → List α
  | char c => [c]
  | spec mods conv => g.percent :: (mods ++ [conv])

/-- An ordinary character is no per cent sign, and a complete `%%` has nothing between. -/
def Ok (g : Grammar α) : Directive α → Prop
  | char c => c ≠ g.percent
  | spec mods conv => (∀ a ∈ mods, g.modifier a = true) ∧ g.modifier conv = false ∧
      (conv = g.percent → mods = [])

def conversion : Directive α → Option (List α × α)
  | char _ => none
  | spec mods conv => some (mods, conv)

theorem source_ne_nil (g : Grammar α) (d : Directive α) : d.source g ≠ [] := by
  cases d <;> exact List.cons_ne_nil _ _

end Directive

def conversions (ds : List (Directive α)) : List (List α × α) := ds.filterMap Directive.conversion

def spell (g : Grammar α) (ds : List (Directive α)) : List α := ds.flatMap (Directive.source g)

@[simp] theorem spell_nil (g : Grammar α) : spell g [] = [] := rfl

@[simp] theorem spell_cons (g : Grammar α) (d : Directive α) (ds : List (Directive α)) :
    spell g (d :: ds) = d.source g ++ spell g ds := rfl

@[simp] theorem spell_append (g : Grammar α) (ds es : List (Directive α)) :
    spell g (ds ++ es) = spell g ds ++ spell g es := List.flatMap_append

@[simp] theorem spell_chars (g : Grammar α) (s : List α) : spell g (s.map .char) = s := by
  induction s with
  | nil => rfl
  | cons c s ih =>
      rw [List.map_cons, spell_cons, ih]
      rfl

theorem spell_eq_nil {g : Grammar α} {ds : List (Directive α)} (h : spell g ds = []) : ds = [] := by
  cases ds with
  | nil => rfl
  | cons d ds => exact absurd (List.append_eq_nil_iff.mp h).1 (d.source_ne_nil g)

@[simp] theorem conversions_append (ds es : List (Directive α)) :
    conversions (ds ++ es) = conversions ds ++ conversions es := List.filterMap_append

@[simp] theorem conversions_chars (s : List α) :
    conversions (s.map Directive.char) = [] := by
  induction s with
  | nil => rfl
  | cons c s ih => exact ih

variable [DecidableEq α]

/-- The scan, inside a specification after some modifiers or outside of one. -/
def scanFrom (g : Grammar α) : Option (List α) → List α → Option (List (Directive α))
  | none, [] => some []
  | none, c :: s =>
      if c = g.percent then scanFrom g (some []) s
      else (scanFrom g none s).map (Directive.char c :: ·)
  | some _, [] => none
  | some mods, c :: s =>
      if g.modifier c then scanFrom g (some (mods ++ [c])) s
      else if c = g.percent ∧ mods ≠ [] then none
      else (scanFrom g none s).map (Directive.spec mods c :: ·)

def scan (g : Grammar α) (s : List α) : Option (List (Directive α)) := scanFrom g none s

variable {g : Grammar α} {mods s : List α} {c : α} {ds : List (Directive α)}

theorem scanFrom_mods (before : List α) (hmods : ∀ a ∈ mods, g.modifier a = true) (s : List α) :
    scanFrom g (some before) (mods ++ s) = scanFrom g (some (before ++ mods)) s := by
  induction mods generalizing before with
  | nil => rw [List.nil_append, List.append_nil]
  | cons a mods ih =>
      have ha := hmods a List.mem_cons_self
      have hrest : ∀ b ∈ mods, g.modifier b = true := fun b hb =>
        hmods b (List.mem_cons_of_mem a hb)
      rw [List.cons_append, scanFrom, if_pos ha, ih _ hrest, List.append_assoc]
      rfl

theorem scan_directive {d : Directive α} (hd : d.Ok g) (s : List α) :
    scan g (d.source g ++ s) = (scan g s).map (d :: ·) := by
  cases d with
  | char c => exact if_neg hd
  | spec mods conv =>
      obtain ⟨hmods, hconv, hpercent⟩ := hd
      have hlast : ¬(conv = g.percent ∧ mods ≠ []) := fun h => h.2 (hpercent h.1)
      rw [Directive.source, List.cons_append, scan, scanFrom, if_pos rfl, List.append_assoc,
        scanFrom_mods [] hmods, List.nil_append, List.singleton_append, scanFrom, hconv,
        if_neg Bool.false_ne_true, if_neg hlast, scan]

theorem scan_spell (hok : ∀ d ∈ ds, d.Ok g) : scan g (spell g ds) = some ds := by
  induction ds with
  | nil => rfl
  | cons d ds ih =>
      rw [spell_cons, scan_directive (hok d List.mem_cons_self),
        ih fun e he => hok e (List.mem_cons_of_mem d he)]
      rfl

/-- What has been read of the specification that a scan is in. -/
def begun (g : Grammar α) : Option (List α) → List α
  | none => []
  | some mods => g.percent :: mods

def ModifiersOnly (g : Grammar α) : Option (List α) → Prop
  | none => True
  | some mods => ∀ a ∈ mods, g.modifier a = true

omit [DecidableEq α] in
theorem modifiersOnly_none : ModifiersOnly g none := trivial

theorem scanFrom_char (hc : c ≠ g.percent) (h : scanFrom g none (c :: s) = some ds) :
    ∃ rest, scanFrom g none s = some rest ∧ ds = .char c :: rest := by
  rw [scanFrom, if_neg hc] at h
  obtain ⟨rest, hrest, rfl⟩ := Option.map_eq_some_iff.mp h
  exact ⟨rest, hrest, rfl⟩

theorem scanFrom_conv (hmods : ModifiersOnly g (some mods)) (hconv : g.modifier c = false)
    (h : scanFrom g (some mods) (c :: s) = some ds) :
    ∃ rest, scanFrom g none s = some rest ∧ ds = .spec mods c :: rest ∧
      (Directive.spec mods c).Ok g := by
  rw [scanFrom, hconv, if_neg Bool.false_ne_true] at h
  split at h
  · cases h
  · rename_i hlast
    obtain ⟨rest, hrest, rfl⟩ := Option.map_eq_some_iff.mp h
    refine ⟨rest, hrest, rfl, hmods, hconv, fun heq => ?_⟩
    by_contra hne
    exact hlast ⟨heq, hne⟩

/-- What a scan that ends has found. -/
theorem of_scanFrom {state : Option (List α)} (hstate : ModifiersOnly g state)
    (h : scanFrom g state s = some ds) :
    (∀ d ∈ ds, d.Ok g) ∧ spell g ds = begun g state ++ s := by
  induction s generalizing state ds with
  | nil =>
      cases state with
      | none =>
          obtain rfl := Option.some.inj h
          exact ⟨fun d hd => absurd hd List.not_mem_nil, rfl⟩
      | some mods => cases h
  | cons c s ih =>
      cases state with
      | none =>
          by_cases hpercent : c = g.percent
          · rw [scanFrom, if_pos hpercent] at h
            have hnil : ModifiersOnly g (some []) := fun a ha => absurd ha List.not_mem_nil
            obtain ⟨hok, hspell⟩ := ih hnil h
            exact ⟨hok, by rw [hspell, hpercent]; rfl⟩
          · obtain ⟨rest, hrest, rfl⟩ := scanFrom_char hpercent h
            obtain ⟨hok, hspell⟩ := ih modifiersOnly_none hrest
            refine ⟨List.forall_mem_cons.mpr ⟨hpercent, hok⟩, ?_⟩
            rw [spell_cons, hspell]
            rfl
      | some mods =>
          cases hmodifier : g.modifier c with
          | true =>
              rw [scanFrom, if_pos hmodifier] at h
              have hmore : ModifiersOnly g (some (mods ++ [c])) :=
                List.forall_mem_append.mpr ⟨hstate, List.forall_mem_singleton.mpr hmodifier⟩
              obtain ⟨hok, hspell⟩ := ih hmore h
              refine ⟨hok, ?_⟩
              rw [hspell, begun, begun, List.cons_append, List.append_assoc,
                List.singleton_append, List.cons_append]
          | false =>
              obtain ⟨rest, hrest, rfl, hd⟩ := scanFrom_conv hstate hmodifier h
              obtain ⟨hok, hspell⟩ := ih modifiersOnly_none hrest
              refine ⟨List.forall_mem_cons.mpr ⟨hd, hok⟩, ?_⟩
              rw [spell_cons, hspell, Directive.source, begun, begun, List.nil_append,
                List.cons_append, List.append_assoc, List.singleton_append, List.cons_append]

/-- A format has the directives that spell it. -/
theorem scan_eq_some_iff : scan g s = some ds ↔ (∀ d ∈ ds, d.Ok g) ∧ spell g ds = s := by
  constructor
  · intro h
    exact of_scanFrom modifiersOnly_none h
  · rintro ⟨hok, rfl⟩
    exact scan_spell hok

end Printf
