import I2util.Term.PassText

/-!
What `I2ReadPassPhraseAlloc` leaves of the terminal, the signal actions and the descriptor.

An attempt that ends undoes what it did, if the terminal lets it. What is not undone then is
not undone later: the next attempt takes what it finds for the state to go back to.
-/

namespace I2util

variable {flags : UInt32} {a : Growing.Realloc UInt8} {st : PassLine} {w w' base : Process}
  {att last : Attempt} {earlier : List Attempt} {r : AllocReturn}

/-- Attributes, actions and descriptors are those of the call. -/
structure Process.Restored (base w : Process) : Prop where
  attrs : w.attrs = base.attrs
  actions : w.actions = base.actions
  opened : w.opened = base.opened

theorem Process.Restored.refl (w : Process) : w.Restored w := ⟨rfl, rfl, rfl⟩

def Attempt.Changes (flags : UInt32) (w : Process) (att : Attempt) : Prop :=
  att.sets = true ∧ ∃ oterm, w.attrs att.device = some oterm ∧ oterm.quiet flags ≠ oterm

/-- An attempt that ends undoes what it did: its descriptor is closed, and attributes that
were changed are restored. -/
structure Attempt.Undone (flags : UInt32) (w : Process) (att : Attempt) : Prop where
  closed : att.tty ≠ some 0
  restored : att.Changes flags w → att.restores = true

/-- An attempt that is broken off has nothing to undo. -/
structure Attempt.Untouched (flags : UInt32) (w : Process) (att : Attempt) : Prop where
  tty : att.tty = none
  unchanged : ¬att.Changes flags w
  actions : w.actions = fun _ => .handler

/-- Something of the call is lost: a descriptor is left open, or a terminal is quiet that was
not. -/
def Process.Lost (flags : UInt32) (base w : Process) : Prop :=
  base.opened.length < w.opened.length ∨
    ∃ d, w.attrs d ≠ base.attrs d ∧ ∃ oterm, w.attrs d = some oterm ∧ oterm.quiet flags = oterm

theorem Termios.quiet_quiet (flags : UInt32) (t : Termios) :
    (t.quiet flags).quiet flags = t.quiet flags := by
  have hmask : ∀ f m : UInt32, f &&& m &&& m = f &&& m := fun f m => by
    rw [UInt32.and_assoc, UInt32.and_self]
  rw [Termios.quiet, Termios.quiet]
  congr 1
  · simp only
    split
    · exact hmask _ _
    · rfl
  · simp only [Option.map_map]
    rfl

namespace Process

theorem Lost.not_restored (h : Lost flags base w) : ¬base.Restored w := by
  intro hrestored
  rcases h with hopen | ⟨d, hd, -⟩
  · rw [hrestored.opened] at hopen
    exact Nat.lt_irrefl _ hopen
  · exact hd (congrFun hrestored.attrs d)

theorem Restored.changes_iff (h : base.Restored w) :
    att.Changes flags w ↔ att.Changes flags base := by
  rw [Attempt.Changes, Attempt.Changes, h.attrs]

theorem Restored.undone_iff (h : base.Restored w) : att.Undone flags w ↔ att.Undone flags base :=
  ⟨fun hu => ⟨hu.closed, fun hc => hu.restored (h.changes_iff.mpr hc)⟩,
    fun hu => ⟨hu.closed, fun hc => hu.restored (h.changes_iff.mp hc)⟩⟩

theorem Restored.trans (h : base.Restored w) (h' : w.Restored w') : base.Restored w' :=
  ⟨h'.attrs.trans h.attrs, h'.actions.trans h.actions, h'.opened.trans h.opened⟩

/-! ### One attempt -/

theorem enter_attrs (h : ¬att.Changes flags w) : (w.enter flags att).attrs = w.attrs := by
  show (if att.sets then _ else _) = _
  split
  · rename_i hsets
    cases hterm : w.attrs att.device with
    | none =>
        rw [Option.map_none, ← hterm]
        exact Function.update_eq_self _ _
    | some oterm =>
        have hquiet : oterm.quiet flags = oterm := by
          by_contra hne
          exact h ⟨hsets, oterm, hterm, hne⟩
        rw [Option.map_some, hquiet, ← hterm]
        exact Function.update_eq_self _ _
  · rfl

theorem leave_attrs_none (h : w.attrs att.device = none) (w' : Process) :
    (leave flags att w w').attrs = w'.attrs := by
  simp only [leave, h]

theorem leave_attrs_some {oterm : Termios} (h : w.attrs att.device = some oterm) (w' : Process) :
    (leave flags att w w').attrs =
      if oterm.quiet flags ≠ oterm ∧ att.restores then
        Function.update w'.attrs att.device (some oterm)
      else w'.attrs := by
  simp only [leave, h]

theorem leave_opened (w : Process) (h : att.tty ≠ some 0) :
    (leave flags att w (w.enter flags att)).opened = w.opened := by
  show (if att.tty = some 0 then _ else _) = _
  rw [if_neg h]
  show att.tty.elim (att.tty.toList ++ w.opened) (att.tty.toList ++ w.opened).erase = _
  cases att.tty with
  | none => rfl
  | some fd => exact List.erase_cons_head fd w.opened

theorem leave_attrs_of_undone (h : att.Undone flags w) :
    (leave flags att w (w.enter flags att)).attrs = w.attrs := by
  cases hterm : w.attrs att.device with
  | none =>
      rw [leave_attrs_none hterm]
      refine enter_attrs fun hc => ?_
      obtain ⟨-, oterm, hsome, -⟩ := hc
      rw [hterm] at hsome
      cases hsome
  | some oterm =>
      rw [leave_attrs_some hterm]
      by_cases hquiet : oterm.quiet flags ≠ oterm ∧ att.restores = true
      · -- what was set in between is overwritten
        have hself : Function.update w.attrs att.device (some oterm) = w.attrs := by
          rw [← hterm]
          exact Function.update_eq_self _ _
        rw [if_pos hquiet]
        show Function.update (if att.sets then _ else _) _ _ = _
        split
        · rw [Function.update_idem, hself]
        · exact hself
      · rw [if_neg hquiet]
        refine enter_attrs fun hc => hquiet ?_
        have hrestores := h.restored hc
        obtain ⟨-, oterm', hsome, hne⟩ := hc
        obtain rfl := Option.some.inj (hterm.symm.trans hsome)
        exact ⟨hne, hrestores⟩

/-- Attributes that are quiet already stay as they are. -/
theorem attempt_attrs_of_quiet {d : ℕ} {oterm : Termios} (hterm : w.attrs d = some oterm)
    (hquiet : oterm.quiet flags = oterm) :
    (w.enter flags att).attrs d = some oterm ∧
      (leave flags att w (w.enter flags att)).attrs d = some oterm := by
  have henter : (w.enter flags att).attrs d = some oterm := by
    show (if att.sets then Function.update w.attrs att.device _ else _) d = _
    split
    · by_cases hd : d = att.device
      · subst hd
        rw [Function.update_self, hterm, Option.map_some, hquiet]
      · rw [Function.update_of_ne hd, hterm]
    · exact hterm
  refine ⟨henter, ?_⟩
  cases hdev : w.attrs att.device with
  | none => rwa [leave_attrs_none hdev]
  | some oterm' =>
      rw [leave_attrs_some hdev]
      by_cases hchanged : oterm'.quiet flags ≠ oterm' ∧ att.restores = true
      · have hd : d ≠ att.device := fun hd => by
          subst hd
          obtain rfl := Option.some.inj (hterm.symm.trans hdev)
          exact hchanged.1 hquiet
        rw [if_pos hchanged, Function.update_of_ne hd]
        exact henter
      · rw [if_neg hchanged]
        exact henter

theorem opened_le (flags : UInt32) (att : Attempt) (w : Process) :
    w.opened.length ≤ (w.enter flags att).opened.length ∧
      w.opened.length ≤ (leave flags att w (w.enter flags att)).opened.length := by
  have henter : (w.enter flags att).opened = att.tty.toList ++ w.opened := rfl
  have hle : w.opened.length ≤ (w.enter flags att).opened.length := by
    rw [henter, List.length_append]
    omega
  refine ⟨hle, ?_⟩
  by_cases htty : att.tty = some 0
  · show _ ≤ (if att.tty = some 0 then (w.enter flags att).opened else _).length
    rw [if_pos htty]
    exact hle
  · rw [leave_opened w htty]

/-- What is lost stays lost. -/
theorem Lost.attempt (h : Lost flags base w) (att : Attempt) :
    Lost flags base (w.enter flags att) ∧
      Lost flags base (leave flags att w (w.enter flags att)) := by
  obtain ⟨henter, hleave⟩ := opened_le flags att w
  rcases h with hopen | ⟨d, hd, oterm, hterm, hquiet⟩
  · exact ⟨.inl (by omega), .inl (by omega)⟩
  · obtain ⟨henter', hleave'⟩ := @attempt_attrs_of_quiet flags w att d oterm hterm hquiet
    rw [hterm] at hd
    exact ⟨.inr ⟨d, by rwa [henter'], oterm, henter', hquiet⟩,
      .inr ⟨d, by rwa [hleave'], oterm, hleave', hquiet⟩⟩

/-- An attempt that does not undo what it did loses it. -/
theorem lost_of_not_undone (h : ¬att.Undone flags w) :
    Lost flags w (leave flags att w (w.enter flags att)) := by
  by_cases htty : att.tty = some 0
  · refine .inl ?_
    show _ < (if att.tty = some 0 then att.tty.toList ++ w.opened else _).length
    rw [if_pos htty, htty]
    exact Nat.lt_succ_self _
  · have hchanges : att.Changes flags w ∧ att.restores = false := by
      by_contra hno
      refine h ⟨htty, fun hc => ?_⟩
      by_contra hrestores
      exact hno ⟨hc, by simpa using hrestores⟩
    obtain ⟨⟨hsets, oterm, hterm, hne⟩, hrestores⟩ := hchanges
    have hquiet : (leave flags att w (w.enter flags att)).attrs att.device =
        some (oterm.quiet flags) := by
      rw [leave_attrs_some hterm, if_neg (by simp [hrestores])]
      show (if att.sets then Function.update w.attrs att.device _ else _) att.device = _
      rw [if_pos hsets, Function.update_self, hterm, Option.map_some]
    refine .inr ⟨att.device, ?_, oterm.quiet flags, hquiet, Termios.quiet_quiet flags oterm⟩
    rw [hquiet, hterm]
    exact fun heq => hne (Option.some.inj heq)

theorem resend_restored (w : Process) : w.Restored w.resend.2 := by
  rw [resend]
  split
  · exact .refl w
  · simp only
    split_ifs <;> exact ⟨rfl, rfl, rfl⟩

theorem attempt_restored (h : att.Undone flags w) : w.Restored (w.attempt flags att).2 :=
  Restored.trans ⟨leave_attrs_of_undone h, rfl, leave_opened w h.closed⟩ (resend_restored _)

theorem Lost.resend (h : Lost flags base w) : Lost flags base w.resend.2 := by
  have hsame := resend_restored w
  rwa [Lost, hsame.opened, hsame.attrs]

theorem attempt_restored_iff : w.Restored (w.attempt flags att).2 ↔ att.Undone flags w := by
  refine ⟨fun hrestored => ?_, attempt_restored⟩
  by_contra hno
  exact (lost_of_not_undone hno).resend.not_restored hrestored

theorem enter_restored_iff : w.Restored (w.enter flags att) ↔ att.Untouched flags w := by
  have hopened : (w.enter flags att).opened = att.tty.toList ++ w.opened := rfl
  have hactions : (w.enter flags att).actions = fun _ => .handler := rfl
  constructor
  · intro h
    refine ⟨?_, fun hc => ?_, h.actions.symm.trans hactions⟩
    · have hnil := List.append_left_eq_self.mp (hopened.symm.trans h.opened)
      exact Option.toList_eq_nil_iff.mp hnil
    · obtain ⟨hsets, oterm, hterm, hne⟩ := hc
      have hattrs := congrFun h.attrs att.device
      change (if att.sets then Function.update w.attrs att.device _ else _) _ = _ at hattrs
      rw [if_pos hsets, Function.update_self, hterm, Option.map_some] at hattrs
      exact hne (Option.some.inj hattrs)
  · intro h
    refine ⟨enter_attrs h.unchanged, hactions.trans h.actions.symm, ?_⟩
    rw [hopened, h.tty]
    rfl

end Process

/-! ### All attempts -/

theorem Process.Restored.world_untouched_iff (h : base.Restored w) :
    att.Untouched flags w ↔ att.Untouched flags base :=
  ⟨fun hu => ⟨hu.tty, fun hc => hu.unchanged (h.changes_iff.mpr hc),
      h.actions.symm.trans hu.actions⟩,
    fun hu => ⟨hu.tty, fun hc => hu.unchanged (h.changes_iff.mp hc),
      h.actions.trans hu.actions⟩⟩

theorem after_restored (h : base.Restored w) (hall : ∀ att ∈ earlier, att.Undone flags base) :
    base.Restored (w.after flags earlier) := by
  induction earlier generalizing w with
  | nil => exact h
  | cons att earlier ih =>
      have hone := h.undone_iff.mpr (hall att List.mem_cons_self)
      exact ih (h.trans (Process.attempt_restored hone))
        fun att' hatt' => hall att' (List.mem_cons_of_mem att hatt')

theorem Process.Lost.after (h : Process.Lost flags base w) (earlier : List Attempt) :
    Process.Lost flags base (w.after flags earlier) := by
  induction earlier generalizing w with
  | nil => exact h
  | cons att earlier ih => exact ih (h.attempt att).2.resend

/-- The first attempt that does not undo what it did decides. -/
theorem after_lost (h : base.Restored w) (hsome : ¬∀ att ∈ earlier, att.Undone flags base) :
    Process.Lost flags base (w.after flags earlier) := by
  induction earlier generalizing w with
  | nil => exact absurd (fun _ hatt => by cases hatt) hsome
  | cons att earlier ih =>
      by_cases hone : att.Undone flags base
      · refine ih (h.trans (Process.attempt_restored (h.undone_iff.mpr hone))) fun hall => ?_
        exact hsome (List.forall_mem_cons.mpr ⟨hone, hall⟩)
      · have hlost := (Process.lost_of_not_undone (mt h.undone_iff.mp hone)).resend
        rw [Process.Lost, h.attrs, h.opened] at hlost
        exact Process.Lost.after hlost earlier

/-- The three ways out. -/
theorem returned_proc (hrun : i2ReadPassPhraseAlloc.run flags a st [last] w = .returned r) :
    (last.lacksTty flags ∧ r.proc = w) ∨
      (¬last.lacksTty flags ∧ (st.attempt flags a last).1 = false ∧ r.proc = w.enter flags last) ∨
        (¬last.lacksTty flags ∧ (st.attempt flags a last).1 = true ∧
          r.proc = (w.attempt flags last).2) := by
  rcases i2ReadPassPhraseAlloc.returned_cases hrun with
    ⟨htty, rfl⟩ | ⟨htty, hread, rfl⟩ | ⟨htty, hread, -, rfl⟩ | ⟨-, hmore⟩
  · exact .inl ⟨htty, rfl⟩
  · exact .inr (.inl ⟨htty, hread, rfl⟩)
  · exact .inr (.inr ⟨htty, hread, rfl⟩)
  · cases hmore

/-- A return leaves everything as it was if and only if every attempt undoes what it did. An
attempt whose allocation is refused is broken off. -/
theorem restored_iff {lbuf : Lbuf}
    (hwait : i2ReadPassPhraseAlloc flags a lbuf earlier w = .waiting)
    (hrun : i2ReadPassPhraseAlloc flags a lbuf (earlier ++ [last]) w = .returned r) :
    w.Restored r.proc ↔ (∀ att ∈ earlier, att.Undone flags w) ∧
      (last.lacksTty flags ∨
        if ((PassLine.after flags a ⟨lbuf, 0, 0⟩ earlier).attempt flags a last).1 = true then
          last.Undone flags w
        else last.Untouched flags w) := by
  rw [i2ReadPassPhraseAlloc] at hwait hrun
  rw [i2ReadPassPhraseAlloc.run_append hwait] at hrun
  have hways := returned_proc hrun
  by_cases hall : ∀ att ∈ earlier, att.Undone flags w
  · have hsame := after_restored (.refl w) hall
    -- the last attempt begins in the state of the call
    have hlast : ∀ w', w.Restored w' ↔ (w.after flags earlier).Restored w' := fun w' =>
      ⟨fun h => ⟨h.attrs.trans hsame.attrs.symm, h.actions.trans hsame.actions.symm,
        h.opened.trans hsame.opened.symm⟩, hsame.trans⟩
    rw [hlast]
    rcases hways with ⟨htty, hproc⟩ | ⟨htty, hread, hproc⟩ | ⟨htty, hread, hproc⟩
    · rw [hproc]
      exact ⟨fun _ => ⟨hall, .inl htty⟩, fun _ => .refl _⟩
    · rw [hproc, Process.enter_restored_iff, hsame.world_untouched_iff, hread,
        if_neg Bool.false_ne_true]
      exact ⟨fun h => ⟨hall, .inr h⟩, fun h => h.2.resolve_left htty⟩
    · rw [hproc, Process.attempt_restored_iff, hsame.undone_iff, hread, if_pos rfl]
      exact ⟨fun h => ⟨hall, .inr h⟩, fun h => h.2.resolve_left htty⟩
  · have hlost := after_lost (.refl w) hall
    have hend : Process.Lost flags w r.proc := by
      rcases hways with ⟨-, hproc⟩ | ⟨-, -, hproc⟩ | ⟨-, -, hproc⟩
      · rwa [hproc]
      · rw [hproc]
        exact (hlost.attempt last).1
      · rw [hproc]
        exact (hlost.attempt last).2.resend
    exact ⟨fun h => absurd h hend.not_restored, fun h => absurd h.1 hall⟩

def echoing : Process :=
  { idle with attrs := Function.update (fun _ => none) 0 (some ⟨ECHO, none, []⟩) }

theorem restored_iff_echoing :
    ∃ r, i2ReadPassPhraseAlloc 0 (.padding 0) eightBytes
        ([typing (ascii "ab") (some .SIGTSTP)] ++ [typing (ascii "key") none]) echoing =
          .returned r ∧
      (echoing.Restored r.proc ↔
        (∀ att ∈ [typing (ascii "ab") (some .SIGTSTP)], att.Undone 0 echoing) ∧
          ((typing (ascii "key") none).lacksTty 0 ∨
            if ((PassLine.after 0 (.padding 0) ⟨eightBytes, 0, 0⟩
                [typing (ascii "ab") (some .SIGTSTP)]).attempt 0 (.padding 0)
                  (typing (ascii "key") none)).1 = true then
              (typing (ascii "key") none).Undone 0 echoing
            else (typing (ascii "key") none).Untouched 0 echoing)) :=
  ⟨_, rfl, restored_iff rfl rfl⟩

/-- Without memory for the first byte the echo stays off, the handler stays in place, and the
descriptor stays open. -/
theorem not_restored_refused :
    ∃ r, i2ReadPassPhraseAlloc 0 .refusing ⟨[], 0, false⟩ [typing (ascii "secret") none] echoing =
        .returned r ∧
      r.proc.attrs 0 ≠ echoing.attrs 0 ∧ r.proc.actions .SIGINT ≠ echoing.actions .SIGINT ∧
        r.proc.opened = [3] ∧ ¬echoing.Restored r.proc :=
  ⟨_, rfl, by decide, by decide, rfl, fun h => absurd h.opened (by decide)⟩

end I2util
