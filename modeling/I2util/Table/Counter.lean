import I2util.Library.BigEndian
import I2util.Table.Refine

/-!
The counter `length` of a table, which has 32 bits.

`I2HashStore` means to refuse a new key when no further entry can be counted, but
it looks at `size`, the number of buckets, and not at `length`. The counter is right
as long as no new key is stored in a table with 2^32 - 1 entries.
-/

namespace I2util

variable {K V σ : Type}

section Definitions

variable (cmp : K → K → ℤ) (hash : K → UInt32)

/-- Memory has run out: there is no free node, and no block of new ones. -/
def NoNode (t : I2Table K V) (mem : Alloc) : Prop :=
  t.freelist = none ∧ mem ≠ ⟨true, true⟩

instance (t : I2Table K V) (mem : Alloc) : Decidable (NoNode t mem) :=
  inferInstanceAs (Decidable (_ ∧ _))

/-- The call does not store a new key in a table with 2^32 - 1 entries. -/
def Op.Fits (t : I2Table K V) (m : List (K × V)) : Op K V σ → Prop
  | .store key _ mem =>
      m.length + 1 < UInt32.size ∨ Assoc.Has (Same cmp) key m ∨ NoNode t mem
  | _ => True

/-- What a store has to do for the counter: a new key is refused when the counter
is at its maximum, and the counter is right afterwards. -/
def CountKept (m : List (K × V)) (key : K) (value : V) (rc : ℤ) (t' : I2Table K V) : Prop :=
  (m.length + 1 = UInt32.size → ¬Assoc.Has (Same cmp) key m → rc = -1 ∧ Refines cmp hash t' m) ∧
    t'.length.toNat = (if rc = 0 then Assoc.put (Same cmp) key value m else m).length

/-- Tables that calls lead to when each of them fits, with the map that the calls
and their answers make. -/
inductive Counted [Inhabited K] [Inhabited V] : I2Table K V → List (K × V) → Prop
  | init {hint : UInt32} {table buckets : Bool} {mem : Alloc} {t : I2Table K V}
      (hrun : i2HashInit hint table buckets mem = some t) : Counted t []
  | step {t t' : I2Table K V} {m : List (K × V)} {σ : Type} {op : Op K V σ}
      {a : Answer K V σ} (h : Counted t m) (hfits : op.Fits cmp t m)
      (hrun : op.run cmp hash t = some (a, t')) : Counted t' (op.next cmp m a)

end Definitions

/-! ### The counter of one table -/

section Counter

variable {cmp : K → K → ℤ} {hash : K → UInt32} {t : I2Table K V} {m : List (K × V)}

theorem Refines.length_eq (h : Refines cmp hash t m) : t.length = UInt32.ofNat m.length := by
  obtain ⟨c, f, hvalid, hiter, hperm⟩ := h
  rw [hvalid.shape.length_eq, hvalid.chained_length hiter, hperm.length_eq]

theorem Refines.deleteNodes_eq (h : Refines cmp hash t m) : t.deleteNodes = 0 := by
  obtain ⟨c, f, hvalid, hiter, -⟩ := h
  have hcount : (chained t.size.toNat c).countP (fun a => (t.nodes a).delete) = 0 :=
    List.countP_eq_zero.mpr fun a ha => by simp [hvalid.idle hiter a ha]
  rw [hvalid.delete_eq, hcount]
  rfl

theorem Refines.i2HashNumEntries_eq (h : Refines cmp hash t m) :
    i2HashNumEntries t = UInt32.ofNat m.length := by
  rw [i2HashNumEntries, h.deleteNodes_eq, if_neg (UInt32.not_lt.mpr UInt32.zero_le), h.length_eq]
  simp

theorem Refines.i2HashClean_empties (h : Refines cmp hash t m) (hlen : m.length < UInt32.size) :
    ∃ t', i2HashClean t = some t' ∧ ∀ i < t'.size.toNat, t'.buckets i = none := by
  obtain ⟨c, f, hvalid, hiter, hperm⟩ := h
  have hchained : (chained t.size.toNat c).length < UInt32.size := by
    rwa [hvalid.chained_length hiter, hperm.length_eq]
  obtain ⟨t', c', f', hrun, hvalid', hiter', hempty⟩ := hvalid.i2HashClean_eq hiter hchained
  refine ⟨t', hrun, fun i hi => ?_⟩
  have hnone : (chained t'.size.toNat c').length = 0 := by
    rw [hvalid'.chained_length hiter', hempty]
    rfl
  have hc' : c' i = [] :=
    List.flatMap_eq_nil_iff.mp (List.length_eq_zero_iff.mp hnone) i (List.mem_range.mpr hi)
  exact hvalid'.shape.deref_linkAfter hi (show c' i = [] ++ [] from hc')

end Counter

/-! ### A store -/

section Store

variable {cmp : K → K → ℤ} {hash : K → UInt32} {t : I2Table K V} {m : List (K × V)}
  [Inhabited K] [Inhabited V]

theorem allocBinding_of_noNode (hle : t.numAlist ≤ t.sizeAlist) {mem : Alloc}
    (hnode : NoNode t mem) : ∃ t', allocBinding t mem = some (none, t') := by
  obtain ⟨hfree, hmem⟩ := hnode
  cases hrealloc : mem.realloc with
  | false => exact ⟨t, by simp [allocBinding, allocFreelist, hfree, hle, hrealloc]⟩
  | true =>
      have hcalloc : mem.calloc = false := by
        rw [← Bool.not_eq_true]
        intro hcalloc
        exact hmem (Alloc.mk.injEq .. ▸ ⟨hrealloc, hcalloc⟩)
      exact ⟨_, by simp [allocBinding, allocFreelist, hfree, hle, hrealloc, hcalloc]; rfl⟩

variable (hcmp : Equivalence (Same cmp)) (hhash : ∀ x y, Same cmp x y → hash x = hash y)

include hcmp hhash

/-- A new key is refused for want of a node only. -/
theorem Refines.i2HashStore_eq (h : Refines cmp hash t m) (key : K) (value : V) (mem : Alloc) :
    ∃ rc t', i2HashStore cmp hash t key value mem = some (rc, t') ∧
      Refines cmp hash t' (if rc = 0 then Assoc.put (Same cmp) key value m else m) ∧
      rc = if ¬Assoc.Has (Same cmp) key m ∧ NoNode t mem then -1 else 0 := by
  obtain ⟨c, f, hvalid, hiter, hperm⟩ := h
  obtain ⟨rc, t', c', f', hrun, hvalid', hiter', hres⟩ :=
    hvalid.i2HashStore_eq hcmp hhash hiter key value mem
  refine ⟨rc, t', hrun, ?_, ?_⟩
  · rcases hres with ⟨rfl, hput⟩ | ⟨rfl, -, -, -, hsame⟩
    · exact ⟨c', f', hvalid', hiter', hput.trans (Assoc.put_perm hperm key value)⟩
    · exact ⟨c', f', hvalid', hiter', hsame ▸ hperm⟩
  · rcases hvalid.search_stored hhash key with ⟨q, hq, hsame, p, hsearch⟩ | ⟨hnew, p, hsearch⟩
    · have hhas : Assoc.Has (Same cmp) key m := (Assoc.has_perm hperm).mp
        ⟨_, mem_pairs.mpr ⟨q, hq, hvalid.idle hiter q hq, rfl⟩, hsame⟩
      rw [if_neg fun hno => hno.1 hhas]
      rcases hres with ⟨rfl, -⟩ | ⟨-, -, -, hno, -⟩
      · rfl
      · exact absurd ((Assoc.has_perm hperm).mpr hhas) hno
    · have hno : ¬Assoc.Has (Same cmp) key m := fun hhas => by
        obtain ⟨e, he, hsame⟩ := (Assoc.has_perm hperm).mpr hhas
        obtain ⟨a, ha, -, rfl⟩ := mem_pairs.mp he
        exact hnew a ha hsame
      by_cases hnode : NoNode t mem
      · obtain ⟨u, halloc⟩ := allocBinding_of_noNode hvalid.shape.alist_le hnode
        have hfail : i2HashStore cmp hash t key value mem = some (-1, u) := by
          simp [i2HashStore, hiter, hvalid.shape.size_max, hsearch, halloc]
        rw [hrun] at hfail
        rw [if_pos ⟨hno, hnode⟩]
        exact (Prod.mk.inj (Option.some.inj hfail)).1
      · rw [if_neg fun hboth => hnode hboth.2]
        rcases hres with ⟨rfl, -⟩ | ⟨-, hfree, hmem, -, -⟩
        · rfl
        · exact absurd ⟨hfree, hmem⟩ hnode

/-- A store keeps the counter right exactly when it fits. -/
theorem Refines.countKept_iff (h : Refines cmp hash t m) (hlen : m.length < UInt32.size)
    (key : K) (value : V) (mem : Alloc) :
    ∃ rc t', i2HashStore cmp hash t key value mem = some (rc, t') ∧
      (CountKept cmp hash m key value rc t' ↔
        (Op.store key value mem : Op K V σ).Fits cmp t m) := by
  obtain ⟨rc, t', hrun, href, hrc⟩ := h.i2HashStore_eq hcmp hhash key value mem
  refine ⟨rc, t', hrun, ?_⟩
  have hcount := congrArg UInt32.toNat href.length_eq
  rw [UInt32.toNat_ofNat'] at hcount
  by_cases hhas : Assoc.Has (Same cmp) key m
  · -- the number of entries stays
    rw [if_neg fun hno => hno.1 hhas] at hrc
    subst hrc
    rw [if_pos rfl, Assoc.length_put, if_pos hhas, Nat.mod_eq_of_lt hlen] at hcount
    refine iff_of_true ⟨fun _ hnew => absurd hhas hnew, ?_⟩ (.inr (.inl hhas))
    rw [hcount, if_pos rfl, Assoc.length_put, if_pos hhas]
  · by_cases hnode : NoNode t mem
    · rw [if_pos ⟨hhas, hnode⟩] at hrc
      subst hrc
      rw [if_neg (by decide), Nat.mod_eq_of_lt hlen] at hcount
      rw [if_neg (by decide)] at href
      exact iff_of_true ⟨fun _ _ => ⟨rfl, href⟩, by rw [hcount, if_neg (by decide)]⟩
        (.inr (.inr hnode))
    · -- one entry more
      rw [if_neg fun hboth => hnode hboth.2] at hrc
      subst hrc
      rw [if_pos rfl, Assoc.length_put, if_neg hhas] at hcount
      rw [CountKept, if_pos rfl, Assoc.length_put, if_neg hhas, hcount]
      constructor
      · rintro ⟨hfull, -⟩
        refine .inl (lt_of_le_of_ne hlen fun heq => ?_)
        have hrefused := (hfull heq hhas).1
        cases hrefused
      · rintro (hroom | hno | hno)
        · exact ⟨fun heq => absurd heq (ne_of_lt hroom), Nat.mod_eq_of_lt hroom⟩
        · exact absurd hno hhas
        · exact absurd hno hnode

theorem Refines.length_next_lt (h : Refines cmp hash t m) (hlen : m.length < UInt32.size)
    {op : Op K V σ} (hfits : op.Fits cmp t m) {a : Answer K V σ} {t' : I2Table K V}
    (hrun : op.run cmp hash t = some (a, t')) : (op.next cmp m a).length < UInt32.size := by
  cases op with
  | store key value mem =>
      obtain ⟨rc, t₁, hstore, -, hrc⟩ := h.i2HashStore_eq hcmp hhash key value mem
      rw [Op.run, hstore] at hrun
      obtain ⟨rfl, -⟩ := Prod.mk.inj (Option.some.inj hrun)
      rw [Op.next]
      split
      · rename_i hzero
        rw [Assoc.length_put]
        split
        · exact hlen
        · rename_i hnew
          rcases hfits with hroom | hhas | hnode
          · exact hroom
          · exact absurd hhas hnew
          · rw [if_pos ⟨hnew, hnode⟩] at hrc
            subst hrc
            cases hzero
      · exact hlen
  | delete key => exact lt_of_le_of_lt (List.length_filter_le _ m) hlen
  | clean => exact lt_of_le_of_lt (Nat.zero_le _) hlen
  | iterate ifunc data =>
      cases a with
      | iterated data' events => exact lt_of_le_of_lt mapAfter_sublist.length_le hlen
      | _ => exact hlen
  | _ => exact hlen

theorem Counted.refines (h : Counted cmp hash t m) :
    Refines cmp hash t m ∧ m.length < UInt32.size := by
  induction h with
  | init hrun => exact ⟨Refines.of_init hrun, show 0 < UInt32.size by decide⟩
  | step h hfits hrun ih =>
      obtain ⟨href, hlen⟩ := ih
      obtain ⟨a', t₁, hrun', -, href'⟩ := href.step hcmp hhash hlen _
      rw [hrun] at hrun'
      obtain ⟨rfl, rfl⟩ := Prod.mk.inj (Option.some.inj hrun')
      exact ⟨href', href.length_next_lt hcmp hhash hlen hfits hrun⟩

/-- As long as every call fits, `I2HashNumEntries` returns the number of entries and
`I2HashClean` empties the buckets; the next store keeps the counter right exactly
when it fits. -/
theorem Counted.kept (h : Counted cmp hash t m) :
    Refines cmp hash t m ∧ (i2HashNumEntries t).toNat = m.length ∧
      (∃ t', i2HashClean t = some t' ∧ ∀ i < t'.size.toNat, t'.buckets i = none) ∧
      ∀ key value mem, ∃ rc t', i2HashStore cmp hash t key value mem = some (rc, t') ∧
        (CountKept cmp hash m key value rc t' ↔
          (Op.store key value mem : Op K V Unit).Fits cmp t m) := by
  obtain ⟨href, hlen⟩ := h.refines hcmp hhash
  refine ⟨href, ?_, href.i2HashClean_empties hlen, href.countKept_iff hcmp hhash hlen⟩
  rw [href.i2HashNumEntries_eq, UInt32.toNat_ofNat_of_lt' hlen]

end Store

theorem kept_one :
    ∃ t : I2Table (List UInt8) ℕ, Refines cmpatom hashatom t [([1, 2], 10)] ∧
      (i2HashNumEntries t).toNat = 1 ∧
      (∃ t', i2HashClean t = some t' ∧ ∀ i < t'.size.toNat, t'.buckets i = none) ∧
      ∀ key value mem, ∃ rc t', i2HashStore cmpatom hashatom t key value mem = some (rc, t') ∧
        (CountKept cmpatom hashatom [([1, 2], 10)] key value rc t' ↔
          (Op.store key value mem : Op (List UInt8) ℕ Unit).Fits cmpatom t [([1, 2], 10)]) := by
  obtain ⟨t, hinit⟩ := sampleTable
  have h₀ : Counted cmpatom hashatom t [] := .init hinit
  obtain ⟨rc, t₁, hrun, -, hrc⟩ := (Refines.of_init hinit).i2HashStore_eq cmpatom_equivalence
    hashatom_congr [1, 2] 10 ⟨true, true⟩
  rw [if_neg fun hboth => hboth.2.2 rfl] at hrc
  subst hrc
  have hop : (Op.store [1, 2] 10 ⟨true, true⟩ : Op (List UInt8) ℕ Unit).run cmpatom hashatom t =
      some (.rc 0, t₁) := by
    rw [Op.run, hrun]
    rfl
  have hfits : (Op.store [1, 2] 10 ⟨true, true⟩ : Op (List UInt8) ℕ Unit).Fits cmpatom t [] :=
    .inl (show 0 + 1 < UInt32.size by decide)
  have h₁ : Counted cmpatom hashatom t₁ [([1, 2], 10)] := h₀.step hfits hop
  exact ⟨t₁, h₁.kept cmpatom_equivalence hashatom_congr⟩

/-! ### The counter at its maximum -/

def fourBytes (i : ℕ) : List UInt8 := bigEndian 4 i

def fillOps (n : ℕ) : List (Op (List UInt8) ℕ Unit) :=
  (List.range n).map fun i => .store (fourBytes i) 0 ⟨true, true⟩

theorem runOps_append [Inhabited K] [Inhabited V] {cmp : K → K → ℤ} {hash : K → UInt32}
    {t t₁ t₂ : I2Table K V} {ops ops' : List (Op K V σ)} {as as' : List (Answer K V σ)}
    (h : runOps cmp hash t ops = some (as, t₁)) (h' : runOps cmp hash t₁ ops' = some (as', t₂)) :
    runOps cmp hash t (ops ++ ops') = some (as ++ as', t₂) := by
  induction ops generalizing t as with
  | nil =>
      cases h
      exact h'
  | cons op ops ih =>
      obtain ⟨⟨a, u⟩, hop, hrest⟩ := Option.bind_eq_some_iff.mp h
      obtain ⟨⟨as₁, u₁⟩, hruns, heq⟩ := Option.map_eq_some_iff.mp hrest
      cases heq
      rw [List.cons_append, runOps, hop, Option.bind_some, ih hruns]
      rfl

def filled (n : ℕ) : List (List UInt8 × ℕ) := (List.range n).map fun i => (fourBytes i, 0)

theorem filled_length (n : ℕ) : (filled n).length = n := by
  rw [filled, List.length_map, List.length_range]

theorem get_filled {n k : ℕ} (hn : n ≤ UInt32.size) (hk : k < UInt32.size) :
    Assoc.get (Same cmpatom) (fourBytes k) (filled n) = if k < n then some 0 else none := by
  cases hget : Assoc.get (Same cmpatom) (fourBytes k) (filled n) with
  | none =>
      rw [if_neg]
      intro hkn
      exact Assoc.get_eq_none.mp hget
        ⟨_, List.mem_map_of_mem (List.mem_range.mpr hkn), cmpatom_equivalence.refl _⟩
  | some v =>
      obtain ⟨key, hmem, hsame⟩ := Assoc.get_eq_some hget
      obtain ⟨i, hi, heq⟩ := List.mem_map.mp hmem
      obtain ⟨rfl, rfl⟩ := Prod.mk.inj heq
      have hi : i < n := List.mem_range.mp hi
      have hki : k = i := BigEndian.inj hk (lt_of_lt_of_le hi hn) (same_cmpatom.mp hsame)
      rw [if_pos (hki ▸ hi)]

theorem put_filled {n : ℕ} (hn : n < UInt32.size) :
    Assoc.put (Same cmpatom) (fourBytes n) 0 (filled n) = filled (n + 1) := by
  have hnew : ¬Assoc.Has (Same cmpatom) (fourBytes n) (filled n) := by
    rw [← Assoc.get_eq_none, get_filled (le_of_lt hn) hn, if_neg (lt_irrefl n)]
  rw [Assoc.put, if_neg hnew, filled, filled, List.range_succ, List.map_append]
  rfl

/-- Up to 2^32 keys can be stored. -/
theorem Refines.store_fourBytes {t : I2Table (List UInt8) ℕ} {n : ℕ}
    (h : Refines cmpatom hashatom t (filled n)) (hn : n < UInt32.size) :
    ∃ t', i2HashStore cmpatom hashatom t (fourBytes n) 0 ⟨true, true⟩ = some (0, t') ∧
      Refines cmpatom hashatom t' (filled (n + 1)) := by
  obtain ⟨rc, t', hrun, href, hrc⟩ := h.i2HashStore_eq cmpatom_equivalence hashatom_congr
    (fourBytes n) 0 ⟨true, true⟩
  rw [if_neg fun hboth => hboth.2.2 rfl] at hrc
  subst hrc
  rw [if_pos rfl, put_filled hn] at href
  exact ⟨t', hrun, href⟩

theorem runOps_fillOps {t : I2Table (List UInt8) ℕ} (h : Refines cmpatom hashatom t [])
    {n : ℕ} (hn : n ≤ UInt32.size) :
    ∃ as t', runOps cmpatom hashatom t (fillOps n) = some (as, t') ∧
      Refines cmpatom hashatom t' (filled n) := by
  induction n with
  | zero => exact ⟨[], t, rfl, h⟩
  | succ n ih =>
      obtain ⟨as, t₁, hruns, href⟩ := ih (Nat.le_of_succ_le hn)
      obtain ⟨t₂, hrun, href'⟩ := href.store_fourBytes hn
      have hlast : runOps cmpatom hashatom t₁
          [(.store (fourBytes n) 0 ⟨true, true⟩ : Op (List UInt8) ℕ Unit)] =
            some ([.rc 0], t₂) := by
        rw [runOps, Op.run, hrun]
        rfl
      refine ⟨as ++ [.rc 0], t₂, ?_, href'⟩
      rw [fillOps, List.range_succ, List.map_append]
      exact runOps_append hruns hlast

theorem Refines.fetch_fourBytes {t : I2Table (List UInt8) ℕ} {n : ℕ}
    (h : Refines cmpatom hashatom t (filled n)) (hn : n ≤ UInt32.size) {k : ℕ}
    (hk : k < UInt32.size) :
    i2HashFetch cmpatom hashatom t (fourBytes k) = some (if k < n then some 0 else none) := by
  obtain ⟨c, f, hvalid, -, hperm⟩ := h
  have hfetch := hvalid.i2HashFetch_eq cmpatom_equivalence hashatom_congr (fourBytes k)
  rwa [Assoc.get_perm cmpatom_equivalence hvalid.distinct hperm, get_filled hn hk] at hfetch

/-- With the counter at 0 nothing is removed. -/
theorem i2HashClean_of_length_eq_zero {t : I2Table K V} (hiter : t.inIterate = false)
    (hlength : t.length = 0) : i2HashClean t = some t := by
  have hloop : cleanBuckets (List.range t.size.toNat) t = some t := by
    cases List.range t.size.toNat with
    | nil => rfl
    | cons i is => rw [cleanBuckets, if_pos hlength]
  simp [i2HashClean, hiter, hloop, hlength]

/-- A table of 2^32 - 1 entries takes one more; then it has none by its counter, and
`I2HashClean` leaves them where they are. -/
theorem length_wraps :
    ∃ t as t₁ t₂, i2HashInit 2 true true ⟨true, true⟩ = some t ∧
      runOps cmpatom hashatom t (fillOps (UInt32.size - 1)) = some (as, t₁) ∧
      (i2HashNumEntries t₁).toNat = UInt32.size - 1 ∧
      i2HashFetch cmpatom hashatom t₁ (fourBytes (UInt32.size - 1)) = some none ∧
      i2HashStore cmpatom hashatom t₁ (fourBytes (UInt32.size - 1)) 0 ⟨true, true⟩ = some (0, t₂) ∧
      i2HashNumEntries t₂ = 0 ∧ i2HashClean t₂ = some t₂ ∧
      i2HashFetch cmpatom hashatom t₂ (fourBytes 0) = some (some 0) := by
  obtain ⟨t, hinit⟩ := sampleTable
  have hlast : UInt32.size - 1 < UInt32.size := by decide
  have hnext : UInt32.size - 1 + 1 = UInt32.size := by decide
  have hpos : 0 < UInt32.size := by decide
  generalize UInt32.size - 1 = n at hlast hnext ⊢
  obtain ⟨as, t₁, hruns, h₁⟩ := runOps_fillOps (Refines.of_init hinit) (le_of_lt hlast)
  obtain ⟨t₂, hstore, h₂⟩ := h₁.store_fourBytes hlast
  rw [hnext] at h₂
  have hzero : UInt32.ofNat (filled UInt32.size).length = 0 := by
    rw [filled_length]
    rfl
  have hiter : t₂.inIterate = false := h₂.choose_spec.choose_spec.2.1
  refine ⟨t, as, t₁, t₂, hinit, hruns, ?_, ?_, hstore, ?_, ?_, ?_⟩
  · rw [h₁.i2HashNumEntries_eq, filled_length, UInt32.toNat_ofNat_of_lt' hlast]
  · rw [h₁.fetch_fourBytes (le_of_lt hlast) hlast, if_neg (lt_irrefl n)]
  · rw [h₂.i2HashNumEntries_eq, hzero]
  · exact i2HashClean_of_length_eq_zero hiter (h₂.length_eq.trans hzero)
  · rw [h₂.fetch_fourBytes (le_refl _) hpos, if_pos hpos]

end I2util
