import I2util.Hash.Md5Blocks
import I2util.Store.Lookup
import I2util.Term.PassText
import I2util.Tools.Run

/-!
From the prompt to the file and back.

`aespasswd` reads a pass-phrase with `I2ReadPassPhrase`, and the key that it writes is the
digest of it. `pfstore` reads one with `I2ReadPassPhraseAlloc` and writes it as it is. The
reader of the file gets back what was typed.
-/

namespace I2util

abbrev I2RPP_ECHO_OFF : UInt32 := 0x00

abbrev PPBUF_SIZE : ℕ := 1024

/-- What `main` of `aespasswd.c` makes of the pass-phrase. -/
def aeskey (access : Md5.Access) (mdc : I2MD5Ctx) (passphrase : List UInt8) :
    Option (List UInt8) :=
  let pplen := passphrase.length
  (i2MD5Update access (i2MD5Init mdc) passphrase pplen.toUInt64).bind fun mdc =>
    (i2MD5Final access mdc).map fun r => r.1.toList

/-- The passage of `main` in `aespasswd.c` that asks for the pass-phrase. Without a key the
process exits. -/
def askKey (access : Md5.Access) (mdc : I2MD5Ctx) (ppbuf : List UInt8) (tries : List Attempt)
    (w : Process) : Outcome (Option (List UInt8)) :=
  match i2ReadPassPhrase I2RPP_ECHO_OFF ppbuf tries w with
  | .waiting => .waiting
  | .killed => .killed
  | .returned r => .returned (if r.ret = true then aeskey access mdc (cstr r.buf) else none)

/-- The passage of `main` in `pfstore.c` that asks for the pass-phrase; `pbuf` is null. -/
def askPassPhrase (a : Growing.Realloc UInt8) (tries : List Attempt) (w : Process) :
    Outcome (Option (List UInt8)) :=
  match i2ReadPassPhraseAlloc I2RPP_ECHO_OFF a ⟨[], 0, false⟩ tries w with
  | .waiting => .waiting
  | .killed => .killed
  | .returned r => .returned (if r.ret = true then some (cstr r.lbuf.cells) else none)

/-! ### What is typed -/

def Attempt.passphrase (att : Attempt) : List UInt8 := cstr (att.text I2RPP_ECHO_OFF)

/-- The part of it that fits into `ppbuf`. -/
def Attempt.shortPassphrase (att : Attempt) : List UInt8 :=
  cstr ((att.text I2RPP_ECHO_OFF).take (PPBUF_SIZE - 1))

/-- A line is saved as far as it fits. -/
theorem i2ReadPassPhrase_read_take (flags : UInt32) (x y keys : List UInt8) (hy : 0 < y.length) :
    ∃ z, i2ReadPassPhrase.read flags (x ++ y) x.length keys =
      x ++ ((keys.takeWhile fun ch => ch ≠ nl && ch ≠ cr).map (saved flags)).take (y.length - 1) ++
        0 :: z := by
  induction keys generalizing x y with
  | nil =>
      obtain ⟨z, hz, -⟩ := set_end x hy 0
      exact ⟨z, by rw [i2ReadPassPhrase.read, hz, List.takeWhile_nil, List.map_nil, List.take_nil,
        List.append_nil]⟩
  | cons ch keys ih =>
      rw [i2ReadPassPhrase.read, List.takeWhile_cons]
      by_cases hend : ch = nl ∨ ch = cr
      · have hstop : (ch ≠ nl && ch ≠ cr) = false := by
          rcases hend with rfl | rfl <;> decide
        obtain ⟨z, hz, -⟩ := set_end x hy 0
        rw [if_pos hend, hstop, if_neg Bool.false_ne_true, List.map_nil, List.take_nil,
          List.append_nil]
        exact ⟨z, hz⟩
      have hgo : (ch ≠ nl && ch ≠ cr) = true := by
        simpa [not_or] using hend
      rw [if_neg hend, hgo, if_pos rfl, List.map_cons, List.length_append]
      by_cases hroom : 1 < y.length
      · obtain ⟨y', hset, hlen⟩ := set_end x hy (saved flags ch)
        obtain ⟨z, hz⟩ := ih (x ++ [saved flags ch]) y' (by omega)
        have htake : y.length - 1 = y'.length - 1 + 1 := by omega
        rw [List.length_append, List.length_singleton, List.append_assoc,
          List.singleton_append] at hz
        rw [if_pos (by omega), hset, hz, htake, List.take_succ_cons, List.append_assoc x]
        exact ⟨z, rfl⟩
      · -- the last cell is kept for the NUL
        obtain ⟨z, hz⟩ := ih x y hy
        have hlast : y.length - 1 = 0 := by omega
        rw [if_neg (by omega), hz, hlast, List.take_zero, List.take_zero]
        exact ⟨z, rfl⟩

/-- The string that is returned was typed in the last of the attempts that were made. -/
theorem i2ReadPassPhrase_returned {flags : UInt32} {buf : List UInt8} {tries : List Attempt}
    {w : Process} {r : PassReturn} (h : i2ReadPassPhrase flags buf tries w = .returned r)
    (hret : r.ret = true) :
    ∃ earlier att rest, tries = earlier ++ att :: rest ∧
      i2ReadPassPhrase flags buf earlier w = .waiting ∧
      cstr r.buf = cstr ((att.text flags).take (buf.length - 1)) := by
  induction tries generalizing buf w with
  | nil =>
      rw [i2ReadPassPhrase] at h
      split at h
      · rw [← Outcome.returned.inj h] at hret
        cases hret
      · cases h
  | cons att tries ih =>
      rw [i2ReadPassPhrase] at h
      split_ifs at h with hnil htty
      · rw [← Outcome.returned.inj h] at hret
        cases hret
      · rw [← Outcome.returned.inj h] at hret
        cases hret
      have hlen := i2ReadPassPhrase_read_length flags buf 0 att.keys
      cases hnext : (Process.leave flags att w (w.enter flags att)).resend with
      | mk next w' =>
          rw [hnext] at h
          cases next with
          | done =>
              obtain ⟨z, hz⟩ :=
                i2ReadPassPhrase_read_take flags [] buf att.keys (Nat.pos_of_ne_zero hnil)
              have hread : i2ReadPassPhrase.read flags buf 0 att.keys =
                  (att.text flags).take (buf.length - 1) ++ 0 :: z := hz
              refine ⟨[], att, tries, rfl, by rw [i2ReadPassPhrase, if_neg hnil], ?_⟩
              rw [← Outcome.returned.inj h]
              show cstr (i2ReadPassPhrase.read flags buf 0 att.keys) = _
              rw [hread]
              exact cstr_append_end _ z
          | restart =>
              obtain ⟨earlier, last, rest, rfl, hwait, htext⟩ := ih h
              refine ⟨att :: earlier, last, rest, rfl, ?_, ?_⟩
              · rw [i2ReadPassPhrase, if_neg hnil, if_neg htty, hnext]
                exact hwait
              · rw [htext, hlen]
          | killed => cases h

theorem aeskey_eq (access : Md5.Access) (mdc : I2MD5Ctx) {passphrase : List UInt8}
    (hlen : passphrase.length < 18446744073709551616) :
    aeskey access mdc passphrase = some (Rfc1321.md5 passphrase) := by
  have hsize : passphrase.length.toUInt64.toNat = passphrase.length :=
    UInt64.toNat_ofNat_of_lt' hlen
  obtain ⟨ctx, hupdate, hcollected⟩ := (md5Collected_init mdc).update access hsize.symm
  obtain ⟨digest, hfinal, hdigest⟩ := i2MD5Final_eq hcollected access
  rw [aeskey, hupdate, Option.bind_some, hfinal, Option.map_some, hdigest, List.nil_append]

theorem md5_length (m : List UInt8) : (Rfc1321.md5 m).length = I2KEYLEN := by
  rw [Rfc1321.md5, List.length_flatMap]
  simp

theorem Attempt.shortPassphrase_length (att : Attempt) :
    att.shortPassphrase.length < PPBUF_SIZE := by
  have hcstr : att.shortPassphrase.length ≤
      ((att.text I2RPP_ECHO_OFF).take (PPBUF_SIZE - 1)).length :=
    (List.takeWhile_sublist _).length_le
  exact Nat.lt_of_le_of_lt (hcstr.trans (List.length_take_le _ _)) (by decide)

/-- A key that is written is the digest of what was typed last. -/
theorem askKey_returned {access : Md5.Access} {mdc : I2MD5Ctx} {ppbuf : List UInt8}
    {tries : List Attempt} {w : Process} {key : List UInt8} (hppbuf : ppbuf.length = PPBUF_SIZE)
    (h : askKey access mdc ppbuf tries w = .returned (some key)) :
    ∃ earlier att rest, tries = earlier ++ att :: rest ∧
      askKey access mdc ppbuf earlier w = .waiting ∧ key = Rfc1321.md5 att.shortPassphrase := by
  rw [askKey] at h
  cases hread : i2ReadPassPhrase I2RPP_ECHO_OFF ppbuf tries w with
  | waiting =>
      rw [hread] at h
      cases h
  | killed =>
      rw [hread] at h
      cases h
  | returned r =>
      rw [hread] at h
      have hkey := Outcome.returned.inj h
      split at hkey
      · rename_i hret
        obtain ⟨earlier, att, rest, htries, hwait, htext⟩ := i2ReadPassPhrase_returned hread hret
        rw [hppbuf] at htext
        have hdigest := @aeskey_eq access mdc att.shortPassphrase
          (att.shortPassphrase_length.trans (by decide))
        rw [htext] at hkey
        have hkey := hdigest.symm.trans hkey
        refine ⟨earlier, att, rest, htries, ?_, (Option.some.inj hkey).symm⟩
        rw [askKey, hwait]
      · cases hkey

/-- A pass-phrase that is returned at the first attempt is what was typed. -/
theorem askPassPhrase_returned {a : Growing.Realloc UInt8} {att : Attempt} {w : Process}
    {passphrase : List UInt8} (h : askPassPhrase a [att] w = .returned (some passphrase)) :
    passphrase = att.passphrase := by
  rw [askPassPhrase] at h
  cases hread : i2ReadPassPhraseAlloc I2RPP_ECHO_OFF a ⟨[], 0, false⟩ [att] w with
  | waiting =>
      rw [hread] at h
      cases h
  | killed =>
      rw [hread] at h
      cases h
  | returned r =>
      rw [hread] at h
      have hphrase := Outcome.returned.inj h
      split at hphrase
      · rename_i hret
        obtain ⟨-, hok, -, -, hlbuf⟩ := run_last hread hret
        have hcounted : (⟨⟨[], 0, false⟩, 0, 0⟩ : PassLine).Counted := by
          exact ⟨⟨Nat.le_refl 0, rfl⟩, Nat.le_refl 0⟩
        have hsaved := attempt_saved hcounted hok
        have hstr := hsaved.str
        have hold : (0 : ℕ) ≤ ([] : List UInt8).length := Nat.le_refl 0
        rw [← hlbuf, (cstr_pieced_iff (Nat.le_refl 0) hold).mpr (.inl rfl)] at hstr
        exact (Option.some.inj hphrase).symm.trans hstr
      · cases hphrase

/-! ### What is stored -/

def Store.empty (F : Format) : Store F := ⟨[], by simp, by simp⟩

theorem Store.get_getD {F : Format} (s : Option (Store F)) (q : List UInt8) :
    (s.getD (.empty F)).get q = s.bind fun s' => s'.get q := by
  cases s <;> rfl

/-- A record that is added where there is no file. -/
theorem Store.update_none {F : Format} (r : NewRecord F) :
    F.update none r.id (some r.value) = some (0, ((Store.empty F).put r).text) := by
  have htext : ((Store.empty F).put r).text = r.raw ++ [nl] := by
    rw [Store.put_text_of_not_mem (by simp [Store.ids, Store.entries, Store.empty])]
    rfl
  rw [htext, Format.update]
  simp [Format.read, r.write_eq, Format.copyRest]

section Stores

variable {P : Type} [DecidableEq P] {T : Tool} {bufsiz : ℕ} {a : Args} {p : P}
  {fs fs' : Files P} {s : Option (Store T.format)} {r : NewRecord T.format}

/-- A run that adds or replaces a record leaves the updated store, or a new one. -/
theorem Tool.Exits.content_put (hpos : 0 < bufsiz) (hname : a.fname ≠ T.lockfname)
    (h : T.Exits bufsiz a p fs .start 0 fs') (hid : a.idname = r.id)
    (hvalue : a.value = some r.value) (hold : Tool.oldText a fs = s.map Store.text)
    (hs : ∀ s' ∈ s, s'.Distinguishes r.id)
    (hleft : (T.leftover fs).length ≤ (T.newText a fs).length) :
    fs'.content a.fname = some ((s.getD (.empty T.format)).put r).text := by
  have hupdate : T.format.update (Tool.oldText a fs) a.idname a.value =
      some (0, ((s.getD (.empty T.format)).put r).text) := by
    rw [hold, hid, hvalue]
    cases s with
    | none => exact Store.update_none r
    | some s' => exact Store.update_put r (hs s' rfl)
  have hnew : T.newText a fs = ((s.getD (.empty T.format)).put r).text :=
    (Prod.mk.inj (Option.some.inj ((h.update hpos hname).symm.trans hupdate))).2
  rw [h.content hpos hname, List.drop_eq_nil_of_le hleft, List.append_nil, hnew]

/-- A run that succeeds has got a pass-phrase, and could write it. -/
theorem Tool.Exits.value_eq (h : T.Exits bufsiz a p fs .start 0 fs')
    (hadd : a.doDelete = false) : ∃ value, a.passphrase = some value ∧ a.value = some value := by
  obtain ⟨haccepts, -⟩ := h.accepts
  have hprompted := haccepts.prompted
  rw [Tool.afterPrompt, if_neg (by simp [hadd])] at hprompted
  split_ifs at hprompted with hlong hnone
  obtain ⟨value, hvalue⟩ := Option.ne_none_iff_exists'.mp hnone
  exact ⟨value, hvalue, by rw [Args.value, if_neg (by simp [hadd]), hvalue]⟩

theorem Format.write_of_update {F : Format} {fp : Option (List UInt8)} {id value text : List UInt8}
    (h : F.update fp id (some value) = some (0, text)) : 0 ≤ (F.write id value).1 := by
  rw [Format.update] at h
  obtain ⟨x, -, hx⟩ := Option.bind_eq_some_iff.mp h
  split at hx
  · cases hx
  · dsimp only at hx
    split at hx
    · cases hx
    · rename_i hwrite
      exact Int.not_lt.mp hwrite

end Stores

/-! ### The two programs -/

section Programs

variable {P : Type} [DecidableEq P] {bufsiz : ℕ} {a : Args} {p : P} {fs fs' : Files P}

/-- After a run of `aespasswd` that succeeds the reader finds the digest of RFC 1321 of what
was typed at the last prompt, and every other key as it was. -/
theorem aespasswd_stores_digest {access : Md5.Access} {mdc : I2MD5Ctx} {ppbuf : List UInt8}
    {tries : List Attempt} {w : Process} {s : Option (Store keyFormat)} (hpos : 0 < bufsiz)
    (hppbuf : ppbuf.length = PPBUF_SIZE)
    (hask : askKey access mdc ppbuf tries w = .returned a.passphrase)
    (hname : a.fname ≠ aespasswd.lockfname) (hid : IsIdentity a.idname) (hadd : a.doDelete = false)
    (hold : Tool.oldText a fs = s.map Store.text)
    (hleft : (aespasswd.leftover fs).length ≤ (aespasswd.newText a fs).length)
    (hexits : aespasswd.Exits bufsiz a p fs .start 0 fs') :
    ∃ earlier att rest text, tries = earlier ++ att :: rest ∧
      askKey access mdc ppbuf earlier w = .waiting ∧ fs'.content a.fname = some text ∧
      ∀ q, IsIdentity q → q.length ≤ I2MAXIDENTITYLEN →
        Finds keyFormat text q
          (if q = a.idname then some (Rfc1321.md5 att.shortPassphrase)
          else s.bind fun s' => s'.get q) := by
  obtain ⟨key, hkey, hvalue⟩ := hexits.value_eq hadd
  rw [hkey] at hask
  obtain ⟨earlier, att, rest, htries, hwait, rfl⟩ := askKey_returned hppbuf hask
  have hlen : a.idname.length ≤ I2MAXIDENTITYLEN :=
    Nat.not_lt.mp fun hlt => hexits.accepts.1.short ⟨_, rfl, hlt⟩
  let r : NewRecord keyFormat :=
    .ofKey a.idname _ hid hlen (md5_length att.shortPassphrase)
  have hcontent := @Tool.Exits.content_put P _ aespasswd bufsiz a p fs fs' s r hpos hname hexits rfl
    hvalue hold (fun s' _ => s'.key_distinguishes hid.no_nul hlen) hleft
  refine ⟨earlier, att, rest, _, htries, hwait, hcontent, fun q hq hqlen => ?_⟩
  have hfinds := Store.finds
    (((s.getD (.empty keyFormat)).put r).key_distinguishes hq.no_nul hqlen)
  rwa [Store.get_put, Store.get_getD] at hfinds

/-- After a run of `pfstore` that succeeds the reader finds what was typed at the prompt, and
every other pass-phrase as it was. -/
theorem pfstore_stores_typed {realloc : Growing.Realloc UInt8} {att : Attempt} {w : Process}
    {s : Option (Store pfFormat)} (hpos : 0 < bufsiz)
    (hask : askPassPhrase realloc [att] w = .returned a.passphrase)
    (hname : a.fname ≠ pfstore.lockfname) (hid : IsIdentity a.idname) (hadd : a.doDelete = false)
    (htyped : att.passphrase ≠ []) (hold : Tool.oldText a fs = s.map Store.text)
    (hs : ∀ s' ∈ s, s'.Incomparable a.idname)
    (hleft : (pfstore.leftover fs).length ≤ (pfstore.newText a fs).length)
    (hexits : pfstore.Exits bufsiz a p fs .start 0 fs') :
    ∃ text, fs'.content a.fname = some text ∧
      ∀ q, IsIdentity q → (∀ s' ∈ s, s'.Incomparable q) → (Comparable a.idname q → a.idname = q) →
        Finds pfFormat text q
          (if q = a.idname then some att.passphrase else s.bind fun s' => s'.get q) := by
  obtain ⟨passphrase, hphrase, hvalue⟩ := hexits.value_eq hadd
  rw [hphrase] at hask
  obtain rfl := askPassPhrase_returned hask
  -- the line could be written
  have hupdate := hexits.update hpos hname
  rw [hvalue] at hupdate
  have hwrite : 0 ≤ (i2WritePFLine a.idname att.passphrase).1 := Format.write_of_update hupdate
  have hfits : a.idname.length + 2 * att.passphrase.length + 2 ≤ 2147483647 := by
    by_contra hlong
    rw [i2WritePFLine_eq hid.ne_nil, if_neg hlong] at hwrite
    exact absurd hwrite (by decide)
  let r : NewRecord pfFormat := .ofPassPhrase a.idname _ hid htyped hfits
  have hcontent := @Tool.Exits.content_put P _ pfstore bufsiz a p fs fs' s r hpos hname hexits rfl
    hvalue hold (fun s' hs' => s'.pf_distinguishes hid.no_nul hid.ne_nil (hs s' hs')) hleft
  refine ⟨_, hcontent, fun q hq hother hself => ?_⟩
  have hq' : ((s.getD (.empty pfFormat)).put r).Incomparable q := by
    intro i hi hcmp
    rcases (Store.mem_ids_put _ r i).mp hi with rfl | hi
    · exact hself hcmp
    · cases s with
      | none => cases hi
      | some s' => exact hother s' rfl i hi hcmp
  have hfinds := Store.finds
    (((s.getD (.empty pfFormat)).put r).pf_distinguishes hq.no_nul hq.ne_nil hq')
  rwa [Store.get_put, Store.get_getD] at hfinds

end Programs

/-! ### A new file -/

def noKeys : Files Unit := .single (ascii "other") []

/-- The user stops the program once, and then types a line that ends with a carriage return. -/
def stoppedOnce : List Attempt :=
  [typing (ascii "ab") (some .SIGTSTP), typing (ascii "secret" ++ [cr]) none]

noncomputable def newKeyFile : Args :=
  ⟨ascii "keys", true, false, ascii "bob", some (Rfc1321.md5 (ascii "secret"))⟩

theorem askKey_stoppedOnce :
    askKey .portable .zero (List.replicate PPBUF_SIZE 0) stoppedOnce idle =
      .returned newKeyFile.passphrase := by
  have hlen : (List.replicate PPBUF_SIZE (0 : UInt8)).length = PPBUF_SIZE :=
    List.length_replicate ..
  have hwait : i2ReadPassPhraseAlloc.run I2RPP_ECHO_OFF (.padding 0) ⟨eightBytes, 0, 0⟩
      [typing (ascii "ab") (some .SIGTSTP)] idle = .waiting := rfl
  obtain ⟨buf, hbuf, hrun⟩ := i2ReadPassPhrase_after hwait (by rw [hlen]; decide)
    [typing (ascii "secret" ++ [cr]) none]
  obtain ⟨r, hr, hret, hstr⟩ := @i2ReadPassPhrase_last I2RPP_ECHO_OFF
    (idle.after I2RPP_ECHO_OFF [typing (ascii "ab") (some .SIGTSTP)])
    (typing (ascii "secret" ++ [cr]) none) buf (by decide) rfl rfl (by rw [hbuf, hlen]; decide)
  have htext : cstr r.buf = ascii "secret" := hstr.trans (by decide)
  have hread : i2ReadPassPhrase I2RPP_ECHO_OFF (List.replicate PPBUF_SIZE 0) stoppedOnce idle =
      .returned r := hrun.trans hr
  rw [askKey, hread]
  dsimp only
  rw [if_pos hret, htext, aeskey_eq _ _ (by decide)]
  rfl

theorem isIdentity_bob : IsIdentity (ascii "bob") := ⟨by decide, by decide, by decide⟩

theorem exits_newKeyFile : ∃ fs', aespasswd.Exits 4096 newKeyFile () noKeys .start 0 fs' := by
  have haccepts : aespasswd.Accepts newKeyFile noKeys :=
    ⟨by decide, by decide, by simp [Tool.afterPrompt, newKeyFile]; decide⟩
  have hupdate := Store.update_none
    (.ofKey (ascii "bob") _ isIdentity_bob (by decide) (md5_length (ascii "secret")))
  obtain ⟨fs', hexits, -⟩ := haccepts.exits (p := ()) (Nat.zero_lt_of_lt (by decide : 1 < 4096))
    (by decide) rfl rfl hupdate
  exact ⟨fs', hexits⟩

theorem aespasswd_stores_digest_new : ∃ fs' earlier att rest text,
    aespasswd.Exits 4096 newKeyFile () noKeys .start 0 fs' ∧
      stoppedOnce = earlier ++ att :: rest ∧
      askKey .portable .zero (List.replicate PPBUF_SIZE 0) earlier idle = .waiting ∧
      fs'.content (ascii "keys") = some text ∧
      Finds keyFormat text (ascii "bob") (some (Rfc1321.md5 att.shortPassphrase)) := by
  obtain ⟨fs', hexits⟩ := exits_newKeyFile
  obtain ⟨earlier, att, rest, text, htries, hwait, htext, hfinds⟩ :=
    aespasswd_stores_digest (s := none) (Nat.zero_lt_of_lt (by decide : 1 < 4096))
      (List.length_replicate ..) askKey_stoppedOnce (by decide) isIdentity_bob rfl rfl
      (Nat.zero_le _) hexits
  exact ⟨fs', earlier, att, rest, text, hexits, htries, hwait, htext,
    hfinds (ascii "bob") isIdentity_bob (by decide)⟩

def newPFFile : Args := ⟨ascii "pf", true, false, ascii "bob", some (ascii "secret")⟩

set_option maxRecDepth 8000 in
theorem pfstore_stores_typed_new : ∃ fs' text,
    pfstore.Exits 4096 newPFFile () noKeys .start 0 fs' ∧ fs'.content (ascii "pf") = some text ∧
      Finds pfFormat text (ascii "bob") (some (ascii "secret")) := by
  have hexits : pfstore.Exits 4096 newPFFile () noKeys .start 0
      (pfstore.run 4096 newPFFile () 10 noKeys .start).1 := ⟨10, _, rfl, rfl⟩
  have hask : askPassPhrase (.padding 0) [typing (ascii "secret" ++ [nl]) none] idle =
      .returned newPFFile.passphrase := rfl
  obtain ⟨text, htext, hfinds⟩ := pfstore_stores_typed (s := none)
    (Nat.zero_lt_of_lt (by decide : 1 < 4096)) hask (by decide) isIdentity_bob rfl (by decide) rfl
    (fun s' hs' => by cases hs') (Nat.zero_le _) hexits
  exact ⟨_, text, hexits, htext,
    hfinds (ascii "bob") isIdentity_bob (fun s' hs' => by cases hs') fun _ => rfl⟩

end I2util
