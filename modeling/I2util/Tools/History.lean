import I2util.Tools.Committed
import I2util.Tools.Leftover
import I2util.Tools.PassPhrase
import I2util.Tools.Untouched

/-!
Runs one after another, each with a command for one identity.

What the runs do to the file is what their commands do to a map from identities to
values. A run that fails leaves the map as it is.
-/

namespace I2util

abbrev Lookup := List UInt8 → Option (List UInt8)

/-- What a run is for: the identity gets its new value, or loses the one that it has. -/
def Args.apply (a : Args) (m : Lookup) : Lookup := Function.update m a.idname a.value

def history (m : Lookup) (runs : List (Args × ℕ)) : Lookup :=
  runs.foldl (fun m r => if r.2 = 0 then r.1.apply m else m) m

def Store.lookup {F : Format} (s : Option (Store F)) : Lookup := fun q => s.bind fun s => s.get q

/-- The program tells the identities in `I` apart, and what it writes for the values in `V`
it can read. -/
structure Tool.Serves (T : Tool) (I V : Set (List UInt8)) : Prop where
  tells : ∀ s : Store T.format, (∀ i ∈ s.ids, i ∈ I) → ∀ q ∈ I, s.Distinguishes q
  writes : ∀ id ∈ I, ∀ v ∈ V, 0 ≤ (T.format.write id v).1 →
    ∃ r : NewRecord T.format, r.id = id ∧ r.value = v

theorem aespasswd_serves :
    aespasswd.Serves {id | IsIdentity id ∧ id.length ≤ I2MAXIDENTITYLEN}
      {key | key.length = I2KEYLEN} where
  tells s _ _ hq := s.key_distinguishes hq.1.no_nul hq.2
  writes id hid v hv _ := ⟨.ofKey id v hid.1 hid.2 hv, rfl, rfl⟩

theorem pfstore_serves {I : Set (List UInt8)} (hI : ∀ i ∈ I, IsIdentity i)
    (hcmp : ∀ i ∈ I, ∀ j ∈ I, Comparable i j → i = j) : pfstore.Serves I {v | v ≠ []} where
  tells s hs q hq :=
    s.pf_distinguishes (hI q hq).no_nul (hI q hq).ne_nil fun i hi => hcmp i (hs i hi) q hq
  writes id hid v hv hwrite := by
    have hfits : id.length + 2 * v.length + 2 ≤ 2147483647 := by
      by_contra hlong
      change 0 ≤ (i2WritePFLine id v).1 at hwrite
      rw [i2WritePFLine_eq (hI id hid).ne_nil, if_neg hlong] at hwrite
      exact absurd hwrite (by decide)
    exact ⟨.ofPassPhrase id v (hI id hid) hv hfits, rfl, rfl⟩

variable {P : Type} [DecidableEq P] {T : Tool} {bufsiz : ℕ} {a : Args} {p : P}
  {fs₀ fs fs' : Files P} {s s' : Proc} {I V : Set (List UInt8)}

/-! ### Access -/

def Accessible (fs : Files P) : Prop := ∀ i, fs.access i = true

omit [DecidableEq P] in
theorem Accessible.openFile (h : Accessible fs) (n : Name) : fs.openFile n = fs.dir n := by
  rw [FileSystem.openFile]
  cases fs.dir n with
  | none => rfl
  | some i => rw [Option.filter_some, if_pos (h i)]

omit [DecidableEq P] in
theorem Accessible.oldText (h : Accessible fs) : Tool.oldText a fs = fs.content a.fname := by
  rw [Tool.oldText, h.openFile]
  rfl

omit [DecidableEq P] in
theorem Accessible.of_access (h : Accessible fs) (heq : fs'.access = fs.access) : Accessible fs' :=
  fun i => (congrFun heq i).trans (h i)

omit [DecidableEq P] in
theorem Accessible.openCreate (h : Accessible fs) (n : Name) : Accessible (fs.openCreate n).2 := by
  rw [FileSystem.openCreate]
  split
  · split <;> exact h
  · intro i
    show Function.update fs.access fs.used true i = true
    by_cases hi : i = fs.used
    · rw [hi, Function.update_self]
    · rw [Function.update_of_ne hi]
      exact h i

omit [DecidableEq P] in
theorem flush_access (n : ℕ) (fs : Files P) (s : Proc) : (flush n fs s).1.access = fs.access := by
  rw [flush]
  split <;> rfl

theorem finish_access (status : ℕ) : (Tool.finish p status fs s).1.access = fs.access :=
  flush_access s.buf.length fs s

theorem Accessible.action (h : Accessible fs) : Accessible (T.action a p fs s).1 := by
  rw [Tool.action]
  cases s.phase with
  | openLock =>
      show Accessible (T.openLock fs s).1
      rw [Tool.openLock]
      dsimp only
      split <;> exact h.openCreate T.lockfname
  | setLock =>
      show Accessible (Tool.setLock p fs s).1
      rw [Tool.setLock]
      split
      · exact h
      · rename_i fs₁ hset
        obtain ⟨i, -, hi⟩ := Option.bind_eq_some_iff.mp hset
        exact h.of_access (FileSystem.setLock_eq hi).2.2
  | closeFrom =>
      show Accessible (s.fromfp.elim fs fun i => fs.close p i)
      cases s.fromfp with
      | none => exact h
      | some i =>
          show Accessible (fs.close p i)
          rw [FileSystem.close]
          split <;> exact h
  | rename =>
      show Accessible (fs.rename T.lockfname a.fname)
      rw [FileSystem.rename]
      split
      · exact h
      · split <;> exact h
  | closeTo => exact h.of_access (finish_access 0)
  | exiting status => exact h.of_access (finish_access status)
  | _ => exact h

theorem Accessible.step (h : Accessible fs) : Accessible (T.step bufsiz a p fs s).1 := by
  rw [Tool.step]
  split
  · exact h
  · split
    · exact h.of_access (flush_access bufsiz fs s)
    · exact h.action

theorem Accessible.run (T : Tool) (bufsiz : ℕ) (a : Args) (p : P) (h : Accessible fs) (n : ℕ) :
    Accessible (T.run bufsiz a p n fs s).1 := by
  induction n generalizing fs s with
  | zero => exact h
  | succ n ih =>
      rw [run_succ]
      exact ih h.step

theorem Accessible.exits {status : ℕ} (h : Accessible fs)
    (hexits : T.Exits bufsiz a p fs s status fs') : Accessible fs' := by
  obtain ⟨n, s', hrun, -⟩ := hexits
  have haccess := @Accessible.run P _ fs s T bufsiz a p h n
  rw [hrun] at haccess
  exact haccess

/-! ### One run -/

theorem Store.mem_ids_erase {F : Format} {s : Store F} {id q : List UInt8}
    (h : q ∈ (s.erase id).ids) : q ∈ s.ids := by
  rw [Store.mem_ids_iff, Store.get_erase] at h
  rw [Store.mem_ids_iff]
  split at h
  · exact absurd rfl h
  · exact h

/-- An update that succeeds does what its command does. -/
theorem Tool.Serves.update {s : Option (Store T.format)} {new : List UInt8}
    (hserves : T.Serves I V) (hid : a.idname ∈ I) (hvalue : ∀ v, a.value = some v → v ∈ V)
    (hids : ∀ s' ∈ s, ∀ i ∈ s'.ids, i ∈ I)
    (hupdate : T.format.update (s.map Store.text) a.idname a.value = some (0, new)) :
    ∃ s' : Store T.format, new = s'.text ∧ (∀ i ∈ s'.ids, i ∈ I) ∧
      Store.lookup (some s') = a.apply (Store.lookup s) := by
  cases hv : a.value with
  | some v =>
      rw [hv] at hupdate
      obtain ⟨r, hr, rfl⟩ := hserves.writes a.idname hid v (hvalue v hv)
        (Format.write_of_update hupdate)
      have hput : T.format.update (s.map Store.text) r.id (some r.value) =
          some (0, ((s.getD (.empty T.format)).put r).text) := by
        cases s with
        | none => exact Store.update_none r
        | some s' => exact Store.update_put r (hserves.tells s' (hids s' rfl) r.id (hr ▸ hid))
      rw [hr, hupdate] at hput
      refine ⟨(s.getD (.empty T.format)).put r, (Prod.mk.inj (Option.some.inj hput)).2,
        fun i hi => ?_, ?_⟩
      · rcases (Store.mem_ids_put _ r i).mp hi with rfl | hi
        · exact hr ▸ hid
        · cases s with
          | none => cases hi
          | some s' => exact hids s' rfl i hi
      · funext q
        show ((s.getD (.empty T.format)).put r).get q = _
        rw [Store.get_put, Store.get_getD, Args.apply, hv, hr]
        by_cases hq : q = a.idname
        · rw [if_pos hq, hq, Function.update_self]
        · rw [if_neg hq, Function.update_of_ne hq, Store.lookup]
  | none =>
      rw [hv] at hupdate
      cases s with
      | none =>
          -- there is nothing to delete
          rw [Option.map_none, Format.update] at hupdate
          cases Option.some.inj hupdate
      | some s' =>
          have htells := hserves.tells s' (hids s' rfl) a.idname hid
          rw [Option.map_some, Store.update_erase htells] at hupdate
          split at hupdate
          · refine ⟨s'.erase a.idname, (Prod.mk.inj (Option.some.inj hupdate)).2.symm,
              fun i hi => hids s' rfl i (Store.mem_ids_erase hi), ?_⟩
            funext q
            show (s'.erase a.idname).get q = _
            rw [Store.get_erase, Args.apply, hv]
            by_cases hq : q = a.idname
            · rw [if_pos hq, hq, Function.update_self]
            · rw [if_neg hq, Function.update_of_ne hq]
              rfl
          · cases (Prod.mk.inj (Option.some.inj hupdate)).1

theorem Tool.Exits.lookup {s : Option (Store T.format)} (hserves : T.Serves I V)
    (hpos : 0 < bufsiz) (hname : a.fname ≠ T.lockfname)
    (hexits : T.Exits bufsiz a p fs .start 0 fs') (hid : a.idname ∈ I)
    (hvalue : ∀ v, a.value = some v → v ∈ V) (hcovers : T.Covers a fs)
    (hold : Tool.oldText a fs = s.map Store.text) (hids : ∀ s' ∈ s, ∀ i ∈ s'.ids, i ∈ I) :
    ∃ s' : Store T.format, fs'.content a.fname = some s'.text ∧ (∀ i ∈ s'.ids, i ∈ I) ∧
      Store.lookup (some s') = a.apply (Store.lookup s) := by
  have hupdate := hexits.update hpos hname
  rw [hold] at hupdate
  obtain ⟨s', hnew, hs'⟩ := hserves.update hid hvalue hids hupdate
  refine ⟨s', ?_, hs'⟩
  rw [hexits.content hpos hname, List.drop_eq_nil_of_le hcovers, List.append_nil, hnew]

/-! ### All runs -/

/-- What is said of the file at the end of some runs: it is a store of the identities in
`I`, and the reader finds in it what the map says. -/
structure Tool.Serving (T : Tool) (I : Set (List UInt8)) (text : Option (List UInt8))
    (m : Lookup) : Prop where
  finds : ∀ bytes, text = some bytes → ∀ q ∈ I, Finds T.format bytes q (m q)
  missing : text = none → ∀ q ∈ I, m q = none

theorem Tool.Serves.serving {s : Option (Store T.format)} (h : T.Serves I V)
    (hids : ∀ s' ∈ s, ∀ i ∈ s'.ids, i ∈ I) : T.Serving I (s.map Store.text) (Store.lookup s) where
  finds bytes hbytes q hq := by
    obtain ⟨s', rfl, rfl⟩ := Option.map_eq_some_iff.mp hbytes
    exact Store.finds (h.tells s' (hids s' rfl) q hq)
  missing hnone q _ := by
    rw [Option.map_eq_none_iff.mp hnone]
    rfl

def replaceAByB : List (Args × ℕ) :=
  [(.addition (ascii "pf") (ascii "b") recordB.value, 0), (deletion "a", 0)]

def afterAddition : Files Unit :=
  (pfstore.run 4096 (.addition (ascii "pf") (ascii "b") recordB.value) () 11
    (.single (ascii "pf") storeA.text) .start).1

def afterBoth : Files Unit := (pfstore.run 4096 (deletion "a") () 11 afterAddition .start).1

theorem exits_addition_b :
    pfstore.Exits 4096 (.addition (ascii "pf") (ascii "b") recordB.value) ()
      (.single (ascii "pf") storeA.text) .start 0 afterAddition :=
  ⟨11, _, rfl, rfl⟩

set_option maxRecDepth 8000 in
theorem exits_deletion_a : pfstore.Exits 4096 (deletion "a") () afterAddition .start 0 afterBoth :=
  ⟨11, _, rfl, rfl⟩

end I2util
