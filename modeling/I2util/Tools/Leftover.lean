import I2util.Tools.Run

/-!
The lock file that earlier runs have left behind.

It is opened without `O_TRUNC`, so a run that succeeds leaves what it does not
overwrite of the lock file at the end of the file it renames.
-/

namespace I2util

variable {P : Type} [DecidableEq P]

variable {T : Tool} {bufsiz : ℕ} {a : Args} {p : P} {fs₀ fs fs' : Files P}

namespace Tool

variable (T) (bufsiz) (a) (p)

/-- The file is the one that the same run would have left without the lock file. -/
def Unaffected (fs fs' : Files P) : Prop :=
  ∃ clean, T.Exits bufsiz a p (fs.unlink T.lockfname) .start 0 clean ∧
    fs'.content a.fname = clean.content a.fname

def Covers (fs : Files P) : Prop := (T.leftover fs).length ≤ (T.newText a fs).length

end Tool

section Unlink

omit [DecidableEq P]

variable (hname : a.fname ≠ T.lockfname)
include hname

theorem oldText_unlink : Tool.oldText a (fs.unlink T.lockfname) = Tool.oldText a fs := by
  rw [Tool.oldText, FileSystem.openFile_unlink hname]
  rfl

theorem Tool.Accepts.unlink (h : T.Accepts a fs) : T.Accepts a (fs.unlink T.lockfname) where
  short := h.short
  opened := by
    rw [FileSystem.openFile_unlink hname]
    exact h.opened
  prompted := h.prompted

end Unlink

omit [DecidableEq P] in
theorem leftover_unlink : T.leftover (fs.unlink T.lockfname) = [] := by
  rw [Tool.leftover, FileSystem.content_unlink]
  rfl

/-- Without the lock file the run succeeds as well, and leaves the new text. -/
theorem Tool.Exits.clean (hpos : 0 < bufsiz) (hname : a.fname ≠ T.lockfname)
    (h : T.Exits bufsiz a p fs .start 0 fs') :
    ∃ clean, T.Exits bufsiz a p (fs.unlink T.lockfname) .start 0 clean ∧
      clean.content a.fname = some (T.newText a fs) := by
  have hupdate := h.update hpos hname
  rw [← oldText_unlink hname] at hupdate
  have haccepts := h.accepts.1.unlink hname
  obtain ⟨i, fs₁, hlock, hset⟩ := fs.openCreate_unlink (n := T.lockfname) p
  obtain ⟨clean, hexits, hcontent⟩ := haccepts.exits hpos hname hlock hset hupdate
  refine ⟨clean, hexits, ?_⟩
  rw [hcontent rfl, leftover_unlink, List.drop_nil, List.append_nil]

theorem Tool.Exits.unaffected_iff_covers (hpos : 0 < bufsiz) (hname : a.fname ≠ T.lockfname)
    (h : T.Exits bufsiz a p fs .start 0 fs') :
    T.Unaffected bufsiz a p fs fs' ↔ T.Covers a fs := by
  have hcontent := h.content hpos hname
  obtain ⟨clean, hexits, hclean⟩ := h.clean hpos hname
  -- the rest of the lock file is behind the new text
  have hsame : fs'.content a.fname = clean.content a.fname ↔ T.Covers a fs := by
    rw [hcontent, hclean, Option.some_inj, List.append_right_eq_self, List.drop_eq_nil_iff]
    rfl
  constructor
  · rintro ⟨clean', hexits', heq⟩
    obtain ⟨-, rfl⟩ := hexits.unique hexits'
    exact hsame.mp heq
  · intro hcovers
    exact ⟨clean, hexits, hsame.mpr hcovers⟩

theorem Tool.Runs.split {before after : List (Args × ℕ)} {status : ℕ}
    (h : T.Runs bufsiz p fs₀ (before ++ (a, status) :: after) fs) :
    ∃ fs₁ fs₂, T.Runs bufsiz p fs₀ before fs₁ ∧ T.Exits bufsiz a p fs₁ .start status fs₂ ∧
      T.Runs bufsiz p fs₂ after fs := by
  induction before generalizing fs₀ with
  | nil =>
      cases h with
      | cons h hrest => exact ⟨fs₀, _, .nil fs₀, h, hrest⟩
  | cons r before ih =>
      cases h with
      | cons h hrest =>
          obtain ⟨fs₁, fs₂, hbefore, hexits, hafter⟩ := ih hrest
          exact ⟨fs₁, fs₂, .cons h hbefore, hexits, hafter⟩

/-- In a sequence of runs, a run that succeeds leaves the file that it would have left
without the lock file of the runs before it, if and only if what it writes covers that lock
file. -/
theorem Tool.Runs.unaffected_iff {before after : List (Args × ℕ)} (hpos : 0 < bufsiz)
    (hname : a.fname ≠ T.lockfname)
    (h : T.Runs bufsiz p fs₀ (before ++ (a, 0) :: after) fs) :
    ∃ fs₁ fs₂, T.Runs bufsiz p fs₀ before fs₁ ∧ T.Exits bufsiz a p fs₁ .start 0 fs₂ ∧
      T.Runs bufsiz p fs₂ after fs ∧ (T.Unaffected bufsiz a p fs₁ fs₂ ↔ T.Covers a fs₁) := by
  obtain ⟨fs₁, fs₂, hbefore, hexits, hafter⟩ := h.split
  exact ⟨fs₁, fs₂, hbefore, hexits, hafter, hexits.unaffected_iff_covers hpos hname⟩


/-! ### A deletion that has no effect -/

def twoRecords : List UInt8 := ascii "a\t61\nb\t62\n"

def deletion (idname : String) : Args := .deletion (ascii "pf") (ascii idname)

def afterFailure : Files Unit :=
  (pfstore.run 4096 (deletion "c") () 8 (.single (ascii "pf") twoRecords) .start).1

def afterDeletion : Files Unit :=
  (pfstore.run 4096 (deletion "b") () 11 afterFailure .start).1

theorem exits_deletion_c :
    pfstore.Exits 4096 (deletion "c") () (.single (ascii "pf") twoRecords) .start 1 afterFailure :=
  ⟨8, _, rfl, rfl⟩

theorem exits_deletion_b :
    pfstore.Exits 4096 (deletion "b") () afterFailure .start 0 afterDeletion :=
  ⟨11, _, rfl, rfl⟩

theorem runs_unaffected_iff_deletion :
    ∃ fs₁ fs₂, pfstore.Runs 4096 () (.single (ascii "pf") twoRecords) [(deletion "c", 1)] fs₁ ∧
      pfstore.Exits 4096 (deletion "b") () fs₁ .start 0 fs₂ ∧
      pfstore.Runs 4096 () fs₂ [] afterDeletion ∧
      (pfstore.Unaffected 4096 (deletion "b") () fs₁ fs₂ ↔
        pfstore.Covers (deletion "b") fs₁) :=
  Tool.Runs.unaffected_iff (Nat.lt_of_lt_of_le Nat.zero_lt_one (by decide)) (by decide)
    (.cons exits_deletion_c (.cons exits_deletion_b (.nil _)))

/-- The first run fails and leaves a copy of the file in the lock file. The second run
succeeds, and `b` is still in the file. -/
theorem not_unaffected_deletion :
    pfstore.Runs 4096 () (.single (ascii "pf") twoRecords) [(deletion "c", 1)] afterFailure ∧
      pfstore.Exits 4096 (deletion "b") () afterFailure .start 0 afterDeletion ∧
      afterDeletion.content (ascii "pf") = some twoRecords ∧
      ¬pfstore.Unaffected 4096 (deletion "b") () afterFailure afterDeletion := by
  have hafter : afterDeletion.content (ascii "pf") = some twoRecords := rfl
  have hclean : (pfstore.run 4096 (deletion "b") () 11
      (afterFailure.unlink pfstore.lockfname) .start).1.content (ascii "pf") ≠
        some twoRecords := by decide
  refine ⟨.cons exits_deletion_c (.nil _), exits_deletion_b, hafter, ?_⟩
  rintro ⟨clean, hexits, hsame⟩
  have hrun : pfstore.Exits 4096 (deletion "b") () (afterFailure.unlink pfstore.lockfname)
      .start 0 (pfstore.run 4096 (deletion "b") () 11
        (afterFailure.unlink pfstore.lockfname) .start).1 := ⟨11, _, rfl, rfl⟩
  obtain ⟨-, rfl⟩ := hexits.unique hrun
  exact hclean (hsame.symm.trans hafter)

end I2util
