import I2util.Conf.Strings
import I2util.Tools.Main

/-!
The name of the lock file, as the programs assemble it in `lockfname`.

The directory of the file comes first, then `/.`, the name of the program and
`.lock`. What is left of the array is counted in `len`, a `size_t`.
-/

namespace I2util

abbrev PATH_MAX : ℕ := 4096

/-- `lockfname` and `len`, with the values `len` had when it was reduced and what was
taken off it. -/
structure LockName where
  lockfname : List UInt8
  len : UInt64
  reduced : List (ℕ × ℕ)

namespace LockName

def reduce (s : LockName) (n : ℕ) : LockName :=
  { s with len := s.len - n.toUInt64, reduced := s.reduced ++ [(s.len.toNat, n)] }

/-- `strncat` to `lockfname`, which has no result if it writes past the array. -/
def append (s : LockName) (text : List UInt8) : Option LockName :=
  (strncat s.lockfname text s.len.toNat).map fun buf => { s with lockfname := buf }

end LockName

def lockName (dirname : List UInt8 → List UInt8) (fname progname : List UInt8) :
    Option LockName :=
  (strncpyTo (List.replicate PATH_MAX 0) fname (PATH_MAX - 1)).bind fun tmp =>
    (strncpyTo tmp (dirname (cstr tmp)) (PATH_MAX - 1)).bind fun lockfname =>
      let s := (LockName.mk lockfname PATH_MAX.toUInt64 []).reduce (cstr lockfname).length
      ((s.reduce 1).append (ascii "/.")).bind fun s =>
        ((s.reduce 2).append progname).bind fun s =>
          (s.reduce progname.length).append (ascii ".lock")

namespace LockName

/-- The name ends within the array, and `len` was never less than what was taken off
it. -/
structure Safe (s : LockName) : Prop where
  size : s.lockfname.length = PATH_MAX
  ends : 0 ∈ s.lockfname
  reduced : ∀ r ∈ s.reduced, r.2 ≤ r.1

structure Holds (s : LockName) (text : List UInt8) : Prop where
  text_no_nul : 0 ∉ text
  cells : ∃ tail, s.lockfname = text ++ 0 :: tail ∧ s.len.toNat = tail.length
  size : s.lockfname.length = PATH_MAX

variable {s s' : LockName} {text part : List UInt8}

theorem len_reduce {n : ℕ} (hn : n ≤ s.len.toNat) : (s.reduce n).len.toNat = s.len.toNat - n := by
  have hlt : s.len.toNat < 2 ^ 64 := s.len.toNat_lt
  have hnat : n.toUInt64.toNat = n := Nat.mod_eq_of_lt (by omega)
  have hle : n.toUInt64 ≤ s.len := by rw [UInt64.le_iff_toNat_le, hnat]; exact hn
  show (s.len - n.toUInt64).toNat = _
  rw [UInt64.toNat_sub_of_le _ _ hle, hnat]

theorem append_eq_some (h : s.append part = some s') :
    s'.len = s.len ∧ s'.reduced = s.reduced := by
  obtain ⟨buf, -, rfl⟩ := Option.map_eq_some_iff.mp h
  exact ⟨rfl, rfl⟩

/-- `strncat` stays in the array while `len` is what is left of it. -/
theorem Holds.append (h : s.Holds text) (hpiece : 0 ∉ part) :
    ∃ s' tail, s.append part = some s' ∧
      s'.lockfname = (text ++ part.take s.len.toNat) ++ 0 :: tail ∧
      s'.lockfname.length = PATH_MAX ∧ 0 ∉ text ++ part.take s.len.toNat := by
  obtain ⟨tail, hcells, hlen⟩ := h.cells
  have hsize := h.size
  have hroom : (part.take s.len.toNat).length ≤ tail.length := by
    rw [List.length_take, hlen]
    exact Nat.min_le_left ..
  have hcat := strncat_eq h.text_no_nul tail part s.len.toNat
  rw [if_pos hroom, ← hcells] at hcat
  refine ⟨_, _, by rw [LockName.append, hcat]; rfl, rfl, ?_, ?_⟩
  · rw [hcells] at hsize
    simp only [List.length_append, List.length_cons, List.length_drop] at hsize ⊢
    omega
  · intro hmem
    rcases List.mem_append.mp hmem with htext | htake
    · exact h.text_no_nul htext
    · exact hpiece (List.mem_of_mem_take htake)

theorem Holds.piece (h : s.Holds text) (hpiece : 0 ∉ part) (hfits : part.length ≤ s.len.toNat) :
    ∃ s', s.append part = some s' ∧ (s'.reduce part.length).Holds (text ++ part) ∧
      (s'.reduce part.length).len.toNat = s.len.toNat - part.length := by
  obtain ⟨s', tail, happend, hcells, hsize, hnul⟩ := h.append hpiece
  rw [List.take_of_length_le hfits] at hcells hnul
  have hlen := (append_eq_some happend).1
  have hleft : (s'.reduce part.length).len.toNat = s.len.toNat - part.length := by
    rw [len_reduce (hlen ▸ hfits), hlen]
  refine ⟨s', happend, ⟨hnul, ⟨tail, hcells, ?_⟩, hsize⟩, hleft⟩
  rw [hleft]
  obtain ⟨tail₀, hcells₀, hlen₀⟩ := h.cells
  have hsize₀ := h.size
  rw [hcells₀] at hsize₀
  rw [hcells] at hsize
  simp only [List.length_append, List.length_cons] at hsize hsize₀
  omega

end LockName

section Assembled

variable {dirname : List UInt8 → List UInt8} {fname progname : List UInt8} {s : LockName}

open LockName

/-- A copy that leaves the NUL in the last byte alone. -/
theorem strncpyTo_last {buf : List UInt8} {n : ℕ} (text : List UInt8) (hlen : buf.length = n + 1)
    (hlast : buf.drop n = [0]) :
    ∃ buf' tail, strncpyTo buf text n = some buf' ∧ buf' = text.take n ++ 0 :: tail ∧
      buf'.length = n + 1 ∧ buf'.drop n = [0] := by
  have hcells : (text.take n ++ List.replicate (n - text.length) (0 : UInt8)).length = n := by
    simp only [List.length_append, List.length_take, List.length_replicate]
    omega
  have hcopy := strncpyTo_eq text (by omega : n ≤ buf.length)
  rw [hlast] at hcopy
  refine ⟨_, List.replicate (n - text.length) 0, hcopy, ?_, ?_, ?_⟩
  · rw [List.append_cancel_left_eq, ← List.replicate_succ', List.replicate_succ]
  · rw [← List.append_assoc, List.length_append, hcells]
    rfl
  · rw [← List.append_assoc, List.drop_left' hcells]

theorem lockName_start (hdirname : ∀ path, dirname path <+: path ∨ dirname path = ascii ".")
    (hfname : 0 ∉ fname) :
    ∃ s : LockName, s.Holds (dirname (fname.take (PATH_MAX - 1))) ∧
      s.len.toNat = PATH_MAX - 1 - (dirname (fname.take (PATH_MAX - 1))).length ∧
      (∀ r ∈ s.reduced, r.2 ≤ r.1) ∧
      lockName dirname fname progname =
        (s.append (ascii "/.")).bind fun s => ((s.reduce 2).append progname).bind fun s =>
          (s.reduce progname.length).append (ascii ".lock") := by
  have hmax : PATH_MAX = 4096 := rfl
  obtain ⟨tmp, tail, hcopy, rfl, hlen, hlast⟩ :=
    @strncpyTo_last (List.replicate PATH_MAX 0) (PATH_MAX - 1) fname (List.length_replicate ..)
      (by rw [List.drop_replicate]; rfl)
  have hpath : 0 ∉ fname.take (PATH_MAX - 1) := fun h => hfname (List.mem_of_mem_take h)
  rw [lockName, hcopy, Option.bind_some, cstr_append_nul hpath]
  generalize hdir : dirname (fname.take (PATH_MAX - 1)) = dir
  have hshort : dir.length ≤ PATH_MAX - 1 ∧ 0 ∉ dir := by
    rcases hdirname (fname.take (PATH_MAX - 1)) with hcut | hdot
    · rw [hdir] at hcut
      exact ⟨hcut.length_le.trans (List.length_take_le ..),
        fun h => hpath (hcut.subset h)⟩
    · rw [← hdir, hdot]
      decide
  obtain ⟨buf, tail', hcopy', rfl, hlen', -⟩ := strncpyTo_last dir hlen hlast
  rw [hcopy', Option.bind_some]
  rw [List.take_of_length_le hshort.1] at hlen' ⊢
  dsimp only
  rw [cstr_append_nul hshort.2]
  generalize hstart : LockName.mk (dir ++ 0 :: tail') PATH_MAX.toUInt64 [] = start
  have hlen₀ : start.len.toNat = PATH_MAX := by rw [← hstart]; rfl
  have hlen₁ := @len_reduce start dir.length (by omega)
  have hlen₂ := @len_reduce (start.reduce dir.length) 1 (by omega)
  refine ⟨(start.reduce dir.length).reduce 1, ⟨hshort.2, ⟨tail', ?_, ?_⟩, ?_⟩, by omega, ?_, rfl⟩
  · rw [← hstart]
    rfl
  · simp only [List.length_append, List.length_cons] at hlen'
    omega
  · rw [← hstart]
    exact hlen'
  · have hreduced : ((start.reduce dir.length).reduce 1).reduced =
        [(start.len.toNat, dir.length), ((start.reduce dir.length).len.toNat, 1)] := by
      rw [← hstart]
      rfl
    rw [hreduced]
    simp only [List.mem_cons, List.not_mem_nil, or_false, forall_eq_or_imp, forall_eq]
    omega

/-- What `len` was reduced by for the pieces. -/
theorem reduced_eq {t : LockName}
    (h : ((s.append (ascii "/.")).bind fun s => ((s.reduce 2).append progname).bind fun s =>
      (s.reduce progname.length).append (ascii ".lock")) = some t) :
    t.reduced = s.reduced ++ [(s.len.toNat, 2), ((s.reduce 2).len.toNat, progname.length)] := by
  obtain ⟨s₁, hslash, h⟩ := Option.bind_eq_some_iff.mp h
  obtain ⟨s₂, hname, hlock⟩ := Option.bind_eq_some_iff.mp h
  obtain ⟨hlen₁, hreduced₁⟩ := append_eq_some hslash
  obtain ⟨hlen₂, hreduced₂⟩ := append_eq_some hname
  obtain ⟨-, hreduced₃⟩ := append_eq_some hlock
  have hlen : (s₁.reduce 2).len = (s.reduce 2).len := by rw [reduce, reduce, hlen₁]
  calc t.reduced = s₂.reduced ++ [(s₂.len.toNat, progname.length)] := hreduced₃
    _ = s₁.reduced ++ [(s₁.len.toNat, 2)] ++ [((s.reduce 2).len.toNat, progname.length)] := by
        rw [hreduced₂, hlen₂, hlen]
        rfl
    _ = _ := by rw [hreduced₁, hlen₁, List.append_assoc]; rfl

/-- While everything but `.lock` fits, the name is the whole name, cut to the array. -/
theorem lockName_eq (hdirname : ∀ path, dirname path <+: path ∨ dirname path = ascii ".")
    (hfname : 0 ∉ fname) (hprog : 0 ∉ progname)
    (hfits : (dirname (fname.take (PATH_MAX - 1))).length + progname.length ≤ PATH_MAX - 3) :
    ∃ s, lockName dirname fname progname = some s ∧ s.Safe ∧
      cstr s.lockfname = (dirname (fname.take (PATH_MAX - 1)) ++ ascii "/." ++ progname ++
        ascii ".lock").take (PATH_MAX - 1) := by
  have hmax : PATH_MAX = 4096 := rfl
  obtain ⟨s₀, hholds, hlen₀, hreduced, heq⟩ := @lockName_start _ _ progname hdirname hfname
  generalize dirname (fname.take (PATH_MAX - 1)) = dir at hfits hholds hlen₀ ⊢
  have hslash : (ascii "/.").length = 2 := rfl
  obtain ⟨s₁, happend₁, hholds₁, hlen₁⟩ := hholds.piece (by decide : 0 ∉ ascii "/.") (by omega)
  rw [hslash] at hholds₁ hlen₁
  obtain ⟨s₂, happend₂, hholds₂, hlen₂⟩ := hholds₁.piece hprog (by omega)
  obtain ⟨s₃, tail, happend₃, hcells, hsize, hnul⟩ := hholds₂.append (by decide : 0 ∉ ascii ".lock")
  have hresult : lockName dirname fname progname = some s₃ := by
    rw [heq, happend₁, Option.bind_some, happend₂, Option.bind_some, happend₃]
  refine ⟨s₃, hresult, ⟨hsize, by rw [hcells]; simp, ?_⟩, ?_⟩
  · rw [heq] at hresult
    rw [reduced_eq hresult]
    intro r hr
    rcases List.mem_append.mp hr with hold | hnew
    · exact hreduced r hold
    · simp only [List.mem_cons, List.not_mem_nil, or_false] at hnew
      have hlen := @len_reduce s₀ 2 (by omega)
      rcases hnew with rfl | rfl <;> dsimp only <;> omega
  · have hlen : (dir ++ ascii "/." ++ progname).length = dir.length + 2 + progname.length := by
      simp only [List.length_append, hslash]
    rw [hcells, cstr_append_nul hnul, List.take_append, hlen,
      List.take_of_length_le (by omega : (dir ++ ascii "/." ++ progname).length ≤ PATH_MAX - 1)]
    congr 2
    omega

/-- `lockfname` is assembled safely if and only if everything but `.lock` fits. -/
theorem lockName_safe_iff
    (hdirname : ∀ path, dirname path <+: path ∨ dirname path = ascii ".")
    (hfname : 0 ∉ fname) (hprog : 0 ∉ progname) :
    (∃ s, lockName dirname fname progname = some s ∧ s.Safe) ↔
      (dirname (fname.take (PATH_MAX - 1))).length + progname.length ≤ PATH_MAX - 3 := by
  constructor
  · rintro ⟨s, hs, hsafe⟩
    have hmax : PATH_MAX = 4096 := rfl
    obtain ⟨s₀, -, hlen₀, -, heq⟩ := @lockName_start _ _ progname hdirname hfname
    rw [heq] at hs
    have hreduced := hsafe.reduced
    rw [reduced_eq hs] at hreduced
    have hslash : 2 ≤ s₀.len.toNat := hreduced (s₀.len.toNat, 2) (by simp)
    have hname : progname.length ≤ (s₀.reduce 2).len.toNat :=
      hreduced (_, progname.length) (by simp)
    rw [len_reduce hslash] at hname
    omega
  · intro hfits
    obtain ⟨s, hs, hsafe, -⟩ := lockName_eq hdirname hfname hprog hfits
    exact ⟨s, hs, hsafe⟩

/-- The name of a program that does not fit makes `len` wrap, and `.lock` is written
past the array. -/
theorem lockName_overrun
    (hdirname : ∀ path, dirname path <+: path ∨ dirname path = ascii ".")
    (hfname : 0 ∉ fname) (hprog : 0 ∉ progname) (hsize : progname.length < 2 ^ 63)
    (hdir : (dirname (fname.take (PATH_MAX - 1))).length ≤ PATH_MAX - 3)
    (hlong : PATH_MAX - 3 < (dirname (fname.take (PATH_MAX - 1))).length + progname.length) :
    lockName dirname fname progname = none := by
  have hmax : PATH_MAX = 4096 := rfl
  have hslash : (ascii "/.").length = 2 := rfl
  obtain ⟨s₀, hholds, hlen₀, -, heq⟩ := @lockName_start _ _ progname hdirname hfname
  generalize dirname (fname.take (PATH_MAX - 1)) = dir at hdir hlong hholds hlen₀
  obtain ⟨s₁, happend₁, hholds₁, hlen₁⟩ := hholds.piece (by decide : 0 ∉ ascii "/.") (by omega)
  rw [hslash] at hholds₁ hlen₁
  obtain ⟨s₂, tail, happend₂, hcells, hsize₂, hnul⟩ := hholds₁.append hprog
  obtain ⟨hlen₂, -⟩ := append_eq_some happend₂
  have hwrap : 5 ≤ (s₂.reduce progname.length).len.toNat := by
    have hnat : progname.length.toUInt64.toNat = progname.length := Nat.mod_eq_of_lt (by omega)
    show 5 ≤ (s₂.len - progname.length.toUInt64).toNat
    rw [UInt64.toNat_sub, hnat, hlen₂]
    omega
  have hfull : tail.length = 0 := by
    rw [hcells] at hsize₂
    simp only [List.length_append, List.length_cons, List.length_take, hslash] at hsize₂
    omega
  have hnone : strncat (s₂.reduce progname.length).lockfname (ascii ".lock")
      (s₂.reduce progname.length).len.toNat = none := by
    show strncat s₂.lockfname _ _ = none
    rw [hcells]
    apply strncat_none hnul
    rw [hfull]
    exact lt_min (by omega) (by decide)
  rw [heq, happend₁, Option.bind_some, happend₂, Option.bind_some, append, hnone, Option.map_none]

/-- A name that fits is the name of the lock file in the directory. -/
theorem lockName_lockfname (T : Tool)
    (hdirname : ∀ path, dirname path <+: path ∨ dirname path = ascii ".")
    (hfname : 0 ∉ fname) (hprog : 0 ∉ T.progname)
    (hfits : (dirname (fname.take (PATH_MAX - 1)) ++ ascii "/" ++ T.lockfname).length ≤
      PATH_MAX - 1) :
    ∃ s, lockName dirname fname T.progname = some s ∧
      cstr s.lockfname = dirname (fname.take (PATH_MAX - 1)) ++ ascii "/" ++ T.lockfname := by
  have hmax : PATH_MAX = 4096 := rfl
  have hname : dirname (fname.take (PATH_MAX - 1)) ++ ascii "/." ++ T.progname ++ ascii ".lock" =
      dirname (fname.take (PATH_MAX - 1)) ++ ascii "/" ++ T.lockfname := by
    have hslash : ascii "/." = ascii "/" ++ ascii "." := rfl
    rw [hslash, Tool.lockfname]
    simp only [List.append_assoc]
  have hlen := congrArg List.length hname
  have hslash : (ascii "/.").length = 2 := rfl
  have hlock : (ascii ".lock").length = 5 := rfl
  simp only [List.length_append] at hlen hfits
  obtain ⟨s, hs, -, hcstr⟩ := lockName_eq hdirname hfname hprog (by omega)
  refine ⟨s, hs, ?_⟩
  rw [hcstr, hname]
  apply List.take_of_length_le
  simp only [List.length_append]
  exact hfits

end Assembled

/-! ### A directory whose name is too long -/

def dirname (path : List UInt8) : List UInt8 :=
  let dir := (((path.reverse.dropWhile (· = 47)).dropWhile (· ≠ 47)).dropWhile (· = 47)).reverse
  if dir ≠ [] then dir
  else if path.head? = some 47 then ascii "/" else ascii "."

theorem dirname_eq (path : List UInt8) : dirname path <+: path ∨ dirname path = ascii "." := by
  rw [dirname]
  split
  · refine .inl (List.reverse_suffix.mp ?_)
    rw [List.reverse_reverse]
    exact ((List.dropWhile_suffix _).trans (List.dropWhile_suffix _)).trans
      (List.dropWhile_suffix _)
  · split
    · rename_i hhead
      obtain ⟨rest, rfl⟩ := List.head?_eq_some_iff.mp hhead
      exact .inl ⟨rest, rfl⟩
    · exact .inr rfl

theorem dirname_replicate (n : ℕ) :
    dirname (List.replicate (n + 1) 100 ++ ascii "/k") = List.replicate (n + 1) 100 := by
  have hpath : (List.replicate (n + 1) 100 ++ ascii "/k").reverse =
      107 :: 47 :: List.replicate (n + 1) (100 : UInt8) := by
    rw [List.reverse_append, List.reverse_replicate]
    rfl
  have hdir : ((((107 :: 47 :: List.replicate (n + 1) (100 : UInt8)).dropWhile (· = 47)).dropWhile
      (· ≠ 47)).dropWhile (· = 47)) = List.replicate (n + 1) 100 := by
    rw [List.replicate_succ]
    rfl
  rw [dirname, hpath, hdir]
  simp

theorem letters_no_nul (n : ℕ) : 0 ∉ List.replicate n (100 : UInt8) ++ ascii "/k" := by
  intro hmem
  rcases List.mem_append.mp hmem with hletter | hlast
  · exact absurd (List.eq_of_mem_replicate hletter) (by decide)
  · exact absurd hlast (by decide)

theorem lockName_safe_iff_letters :
    (∃ s, lockName dirname (List.replicate 4000 100 ++ ascii "/k") (ascii "pfstore") = some s ∧
        s.Safe) ↔
      (dirname ((List.replicate 4000 100 ++ ascii "/k").take (PATH_MAX - 1))).length +
        (ascii "pfstore").length ≤ PATH_MAX - 3 :=
  lockName_safe_iff dirname_eq (letters_no_nul 4000) (by decide)

/-- `aespasswd` goes past the array in a directory of 4086 letters. -/
theorem not_safe_letters :
    lockName dirname (List.replicate 4086 100 ++ ascii "/k") (ascii "aespasswd") = none ∧
      ¬∃ s, lockName dirname (List.replicate 4086 100 ++ ascii "/k") (ascii "aespasswd") =
        some s ∧ s.Safe := by
  have hpath : (List.replicate 4086 100 ++ ascii "/k").take (PATH_MAX - 1) =
      List.replicate (4085 + 1) 100 ++ ascii "/k" := by
    apply List.take_of_length_le
    rw [List.length_append, List.length_replicate]
    decide
  have hlen : (dirname ((List.replicate 4086 100 ++ ascii "/k").take (PATH_MAX - 1))).length =
      4086 := by
    rw [hpath, dirname_replicate, List.length_replicate]
  have hnone : lockName dirname (List.replicate 4086 100 ++ ascii "/k") (ascii "aespasswd") =
      none := by
    apply lockName_overrun dirname_eq (letters_no_nul 4086) (by decide)
    · exact (by decide : 9 < 2 ^ 63)
    · rw [hlen]
      decide
    · rw [hlen]
      decide
  refine ⟨hnone, ?_⟩
  rintro ⟨s, hs, -⟩
  rw [hnone] at hs
  cases hs

end I2util
