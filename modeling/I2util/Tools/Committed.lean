import I2util.Store.Lookup
import I2util.Tools.Concurrent

/-!
Whole runs of two processes that add or replace a record of the same file.

In a safe run both updates are in the file when both processes have succeeded. In
another one an update can get lost.
-/

namespace I2util

section Progress

variable {T : Tool} {bufsiz : ℕ} {args : Bool → Args} {fname : Name} {s : Store T.format}
  {r : Bool → NewRecord T.format} {sys : Sys Bool}

/-! ### Whole runs -/

theorem Progress.run (hadd : Adding T bufsiz args fname s r)
    (h : Progress T bufsiz args fname s r sys) (sched : List Bool)
    (hsafe : Sys.SafeRun T bufsiz args sys sched) :
    Progress T bufsiz args fname s r (sys.run T bufsiz args sched) := by
  induction sched generalizing sys with
  | nil => exact h
  | cons q sched ih => exact ih (h.step hadd q hsafe.1) hsafe.2

theorem Early.not_exited {P : Type} {fs : Files P} {x : Proc} (h : Early T fname fs x) :
    x.phase ≠ .exited 0 := by
  cases h <;> exact fun heq => by cases heq

theorem Later.not_exited {P : Type} {fs : Files P} {x : Proc} {i : ℕ} (h : Later T i fs x) :
    x.phase ≠ .exited 0 := by
  cases h with
  | ready hphase =>
      rcases hphase with rfl | rfl | rfl <;> exact fun heq => by cases heq
  | _ => exact fun heq => by cases heq

theorem Working.not_exited {P : Type} {a : Args} {fs : Files P} {x : Proc} {i status : ℕ}
    {old : Option (List UInt8)} {left new : List UInt8}
    (h : Working T bufsiz a old i left status new fs x) : x.phase ≠ .exited 0 := by
  intro hexited
  obtain ⟨printed, -, htodo⟩ := h.output
  rw [hexited] at htodo
  cases htodo

/-- When both have succeeded the file holds both records. -/
theorem Progress.committed_of_exited (hadd : Adding T bufsiz args fname s r)
    (h : Progress T bufsiz args fname s r sys) (hexited : ∀ p, (sys.proc p).phase = .exited 0) :
    ∃ text, sys.fs.content fname = some text ∧ Committed s r text := by
  cases h with
  | failed p h =>
      rw [hexited p] at h
      rcases h with h | h <;> cases h
  | idle k hdir hdata hleft hearly => exact absurd (hexited true) (hearly true).not_exited
  | holding p i left hleft howner hp hq => exact absurd (hexited !p) hq.not_exited
  | renamed p i left hleft hp hq => exact absurd (hexited !p) hq.not_exited
  | committed p i hp hdir hdata hq => exact absurd (hexited !p) hq.not_exited
  | replacing p j hp hq => exact absurd (hexited !p) hq.not_exited
  | replaced p j hp hq =>
      have hphase := hq.phase
      rw [hexited] at hphase
      cases hphase
  | done p h hcontent => exact ⟨_, hcontent, committed_putBoth s r p hadd.ids_ne⟩

end Progress

/-! ### The two programs -/

section Programs

variable {bufsiz : ℕ} {args : Bool → Args} {fname : Name}

/-- `aespasswd` tells all identities apart. -/
theorem adding_aespasswd {s : Store keyFormat} {r : Bool → NewRecord keyFormat}
    (hpos : 0 < bufsiz) (hname : fname ≠ aespasswd.lockfname)
    (hargs : ∀ p, args p = .addition fname (r p).id (r p).value)
    (hids : (r true).id ≠ (r false).id)
    (hvalid : ∀ p, IsIdentity (r p).id ∧ (r p).id.length ≤ I2MAXIDENTITYLEN) :
    Adding aespasswd bufsiz args fname s r where
  pos := hpos
  fname_eq := fun p => by rw [hargs, Args.addition]
  fname_ne := hname
  doDelete := fun p => by rw [hargs, Args.addition]
  idname := fun p => by rw [hargs, Args.addition]
  passphrase := fun p => by rw [hargs, Args.addition]
  ids_ne := hids
  distinguishes := fun p => s.key_distinguishes (hvalid p).1.no_nul (hvalid p).2
  distinguishes_put := fun p =>
    (s.put (r p)).key_distinguishes (hvalid !p).1.no_nul (hvalid !p).2

/-- `pfstore` tells identities apart none of which is a prefix of another. -/
theorem adding_pfstore {s : Store pfFormat} {r : Bool → NewRecord pfFormat}
    (hpos : 0 < bufsiz) (hname : fname ≠ pfstore.lockfname)
    (hargs : ∀ p, args p = .addition fname (r p).id (r p).value)
    (hids : ¬Comparable (r true).id (r false).id) (hvalid : ∀ p, IsIdentity (r p).id)
    (hs : ∀ p, s.Incomparable (r p).id) : Adding pfstore bufsiz args fname s r where
  pos := hpos
  fname_eq := fun p => by rw [hargs, Args.addition]
  fname_ne := hname
  doDelete := fun p => by rw [hargs, Args.addition]
  idname := fun p => by rw [hargs, Args.addition]
  passphrase := fun p => by rw [hargs, Args.addition]
  ids_ne := by
    intro heq
    rw [heq] at hids
    exact hids (comparable_self _)
  distinguishes := fun p => s.pf_distinguishes (hvalid p).no_nul (hvalid p).ne_nil (hs p)
  distinguishes_put := by
    intro p
    refine (s.put (r p)).pf_distinguishes (hvalid _).no_nul (hvalid _).ne_nil ?_
    intro id hid hcmp
    rw [Store.mem_ids_put] at hid
    rcases hid with rfl | hid
    · cases p
      · exact absurd hcmp.symm hids
      · exact absurd hcmp hids
    · exact hs _ id hid hcmp

/-- What the file is committed to is found in it. -/
theorem Committed.finds_aespasswd {s : Store keyFormat} {r : Bool → NewRecord keyFormat}
    {text : List UInt8} (h : Committed s r text) (p : Bool) (hvalid : IsIdentity (r p).id)
    (hlen : (r p).id.length ≤ I2MAXIDENTITYLEN) :
    Finds keyFormat text (r p).id (some (r p).value) := by
  obtain ⟨s', rfl, hnew, -⟩ := h
  have hfinds := Store.finds (s'.key_distinguishes hvalid.no_nul hlen)
  rwa [hnew] at hfinds

theorem Committed.finds_pfstore {s : Store pfFormat} {r : Bool → NewRecord pfFormat}
    {text : List UInt8} (h : Committed s r text) (p : Bool)
    (hids : ¬Comparable (r true).id (r false).id) (hvalid : IsIdentity (r p).id)
    (hs : s.Incomparable (r p).id) : Finds pfFormat text (r p).id (some (r p).value) := by
  obtain ⟨s', rfl, hnew, hold⟩ := h
  have hs' : s'.Incomparable (r p).id := by
    intro id hid hcmp
    by_cases hid' : ∀ q, id ≠ (r q).id
    · have hget := hold id hid'
      rw [Store.mem_ids_iff, hget, ← Store.mem_ids_iff] at hid
      exact hs id hid hcmp
    · obtain ⟨q, hq⟩ := not_forall.mp hid'
      obtain rfl : id = (r q).id := not_not.mp hq
      rcases Bool.eq_or_eq_not q p with rfl | rfl
      · rfl
      · cases p
        · exact absurd hcmp hids
        · exact absurd hcmp.symm hids
  have hfinds := Store.finds (s'.pf_distinguishes hvalid.no_nul hvalid.ne_nil hs')
  rwa [hnew] at hfinds

end Programs

/-! ### A lost update -/

/-- An identity of one letter, which is its pass-phrase too. -/
def recordOf (c : Char) (h : IsIdentity [c.toNat.toUInt8]) : NewRecord pfFormat :=
  .ofPassPhrase [c.toNat.toUInt8] [c.toNat.toUInt8] h (by simp) (by simp)

def recordA : NewRecord pfFormat := recordOf 'a' ⟨by decide, by decide, by decide⟩

def recordB : NewRecord pfFormat := recordOf 'b' ⟨by decide, by decide, by decide⟩

def recordC : NewRecord pfFormat := recordOf 'c' ⟨by decide, by decide, by decide⟩

def storeA : Store pfFormat := (⟨[], by simp, by simp⟩ : Store pfFormat).put recordA

theorem ids_storeA : storeA.ids = [ascii "a"] := by decide

def recordsBC (p : Bool) : NewRecord pfFormat := if p = true then recordB else recordC

def additions (p : Bool) : Args :=
  .addition (ascii "pf") (recordsBC p).id (recordsBC p).value

def filesA : Files Bool := .single (ascii "pf") storeA.text

theorem incomparable_storeA (p : Bool) : storeA.Incomparable (recordsBC p).id := by
  intro id hid hcmp
  rw [ids_storeA, List.mem_singleton] at hid
  subst hid
  cases p <;> exact absurd hcmp (by decide)

theorem isIdentity_recordsBC (p : Bool) : IsIdentity (recordsBC p).id := by
  cases p <;> exact ⟨by decide, by decide, by decide⟩

theorem adding_additions : Adding pfstore 4096 additions (ascii "pf") storeA recordsBC :=
  adding_pfstore (Nat.zero_lt_of_lt (by decide : 1 < 4096)) (by decide) (fun _ => rfl) (by decide)
    isIdentity_recordsBC incomparable_storeA

/-- Both processes open the file before one of them gets the lock. -/
def lostSchedule : List Bool :=
  true :: false :: (List.replicate 10 true ++ List.replicate 10 false)

end I2util
