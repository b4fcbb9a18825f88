import I2util.Table.Iterate

/-!
The table as a finite map.

`Op` are the calls of the interface. `Op.Allowed` says how a finite map answers
them, with two choices left open: a call that stores a new key may fail when
memory runs out, and an iteration takes the entries in any order. The table,
started by `I2HashInit`, answers every sequence of calls as the map does.
-/

namespace I2util

variable {K V σ : Type}

/-! ### The default functions -/

def cmpatom (x y : List UInt8) : ℤ := if x.length ≠ y.length ∨ x ≠ y then 1 else 0

def hashatom (key : List UInt8) : UInt32 :=
  (key.foldl (fun ret b => ret + b.toUInt64) (0 : UInt64)).toUInt32

theorem same_cmpatom {x y : List UInt8} : Same cmpatom x y ↔ x = y := by
  constructor
  · intro h
    by_contra hne
    simp [Same, cmpatom, hne] at h
  · rintro rfl
    simp [Same, cmpatom]

theorem cmpatom_equivalence : Equivalence (Same cmpatom) where
  refl := fun _ => same_cmpatom.mpr rfl
  symm := fun h => same_cmpatom.mpr (same_cmpatom.mp h).symm
  trans := fun h h' => same_cmpatom.mpr ((same_cmpatom.mp h).trans (same_cmpatom.mp h'))

theorem hashatom_congr (x y : List UInt8) (h : Same cmpatom x y) : hashatom x = hashatom y :=
  congrArg hashatom (same_cmpatom.mp h)

/-! ### Calls and answers -/

/-- A call. `mem` says which allocations succeed. -/
inductive Op (K V σ : Type) : Type
  | store (key : K) (value : V) (mem : Alloc)
  | fetch (key : K)
  | delete (key : K)
  | clean
  | numEntries
  | iterate (ifunc : I2HashIterateFunc K V σ) (data : σ)

inductive Answer (K V σ : Type) : Type
  | rc (r : ℤ)
  | value (r : Option V)
  | done
  | count (n : UInt32)
  | iterated (data : σ) (events : List (Event K V))

section Definitions

variable (cmp : K → K → ℤ) (hash : K → UInt32)

def Op.run [Inhabited K] [Inhabited V] (t : I2Table K V) :
    Op K V σ → Option (Answer K V σ × I2Table K V)
  | .store key value mem => (i2HashStore cmp hash t key value mem).map fun r => (.rc r.1, r.2)
  | .fetch key => (i2HashFetch cmp hash t key).map fun r => (.value r, t)
  | .delete key => (i2HashDelete cmp hash t key).map fun r => (.rc r.1, r.2)
  | .clean => (i2HashClean t).map fun t => (.done, t)
  | .numEntries => some (.count (i2HashNumEntries t), t)
  | .iterate ifunc data =>
      (i2HashIterate cmp hash t ifunc data).map fun r => (.iterated r.data r.events, r.table)

/-- What a finite map answers. -/
def Op.Allowed (m : List (K × V)) : Op K V σ → Answer K V σ → Prop
  | .store key _ mem, .rc r =>
      r = 0 ∨ r = -1 ∧ mem ≠ ⟨true, true⟩ ∧ ¬Assoc.Has (Same cmp) key m
  | .fetch key, .value r => r = Assoc.get (Same cmp) key m
  | .delete key, .rc r => r = if Assoc.Has (Same cmp) key m then 0 else -1
  | .clean, .done => True
  | .numEntries, .count n => n.toNat = m.length
  | .iterate ifunc data, .iterated data' events =>
      ∃ order, order.Perm m ∧ data' = (visitEntries cmp ifunc order order data).data ∧
        events = (visitEntries cmp ifunc order order data).events
  | _, _ => False

def Op.next (m : List (K × V)) : Op K V σ → Answer K V σ → List (K × V)
  | .store key value _, .rc r => if r = 0 then Assoc.put (Same cmp) key value m else m
  | .delete key, _ => Assoc.erase (Same cmp) key m
  | .clean, _ => []
  | .iterate _ _, .iterated _ events => mapAfter cmp m events
  | _, _ => m

/-- A sequence of calls on the table, up to a call that fails an assertion. -/
def runOps [Inhabited K] [Inhabited V] (t : I2Table K V) :
    List (Op K V σ) → Option (List (Answer K V σ) × I2Table K V)
  | [] => some ([], t)
  | op :: ops =>
      (op.run cmp hash t).bind fun r => (runOps r.2 ops).map fun s => (r.1 :: s.1, s.2)

/-- The answers of a finite map to a sequence of calls. -/
def Conforms : List (K × V) → List (Op K V σ) → List (Answer K V σ) → Prop
  | _, [], [] => True
  | m, op :: ops, a :: as => op.Allowed cmp m a ∧ Conforms (op.next cmp m a) ops as
  | _, _, _ => False

def mapAfterOps : List (K × V) → List (Op K V σ) → List (Answer K V σ) → List (K × V)
  | m, op :: ops, a :: as => mapAfterOps (op.next cmp m a) ops as
  | m, _, _ => m

/-- Between two calls, the table stands for the map `m`. -/
def Refines (t : I2Table K V) (m : List (K × V)) : Prop :=
  ∃ c f, Valid cmp hash t c f ∧ t.inIterate = false ∧ (entries t c).Perm m

end Definitions

section Refine

variable {cmp : K → K → ℤ} {hash : K → UInt32} {t : I2Table K V} {m : List (K × V)}

theorem Valid.chained_length {c : ℕ → List ℕ} {f : List ℕ} (h : Valid cmp hash t c f)
    (hiter : t.inIterate = false) : (chained t.size.toNat c).length = (entries t c).length := by
  have hsum := @length_pairs _ _ t (chained t.size.toNat c)
  have hcount : (chained t.size.toNat c).countP (fun a => (t.nodes a).delete) = 0 :=
    List.countP_eq_zero.mpr fun a ha => by simp [h.idle hiter a ha]
  rw [hcount, Nat.add_zero] at hsum
  exact hsum.symm

theorem Refines.of_init [Inhabited K] [Inhabited V] {hint : UInt32} {table buckets : Bool}
    {mem : Alloc} (h : i2HashInit hint table buckets mem = some t) : Refines cmp hash t [] := by
  obtain ⟨f, hvalid, hiter⟩ := @Valid.of_init _ _ cmp hash _ _ _ _ _ _ _ h
  refine ⟨_, f, hvalid, hiter, ?_⟩
  rw [entries_nil]

variable [Inhabited K] [Inhabited V] (hcmp : Equivalence (Same cmp))
  (hhash : ∀ x y, Same cmp x y → hash x = hash y)

include hcmp hhash

theorem Refines.step (h : Refines cmp hash t m) (hlen : m.length < UInt32.size) (op : Op K V σ) :
    ∃ a t', op.run cmp hash t = some (a, t') ∧ op.Allowed cmp m a ∧
      Refines cmp hash t' (op.next cmp m a) := by
  obtain ⟨c, f, hvalid, hiter, hperm⟩ := h
  have hchained : (chained t.size.toNat c).length < UInt32.size := by
    rw [hvalid.chained_length hiter, hperm.length_eq]
    exact hlen
  cases op with
  | store key value mem =>
      obtain ⟨rc, t', c', f', hrun, hvalid', hiter', hres⟩ :=
        hvalid.i2HashStore_eq hcmp hhash hiter key value mem
      refine ⟨.rc rc, t', by rw [Op.run, hrun]; rfl, ?_⟩
      -- the pair is put, or memory has run out for a new key
      rcases hres with ⟨rfl, hput⟩ | ⟨rfl, -, hmem, hno, hsame⟩
      · exact ⟨.inl rfl, c', f', hvalid', hiter', hput.trans (Assoc.put_perm hperm key value)⟩
      · have hno' : ¬Assoc.Has (Same cmp) key m := mt (Assoc.has_perm hperm).mpr hno
        exact ⟨.inr ⟨rfl, hmem, hno'⟩, c', f', hvalid', hiter', hsame ▸ hperm⟩
  | fetch key =>
      have hrun := hvalid.i2HashFetch_eq hcmp hhash key
      rw [Assoc.get_perm hcmp hvalid.distinct hperm] at hrun
      have hanswer : (Op.fetch key : Op K V σ).run cmp hash t =
          some (.value (Assoc.get (Same cmp) key m), t) := by
        rw [Op.run, hrun]
        rfl
      exact ⟨_, t, hanswer, rfl, c, f, hvalid, hiter, hperm⟩
  | delete key =>
      obtain ⟨t', c', f', hrun, hvalid', herase, hiter', -⟩ :=
        hvalid.i2HashDelete_eq hcmp hhash key
      have hrc : (if Assoc.Has (Same cmp) key (entries t c) then 0 else -1 : ℤ) =
          if Assoc.Has (Same cmp) key m then 0 else -1 :=
        if_congr (Assoc.has_perm hperm) rfl rfl
      rw [hrc] at hrun
      have hanswer : (Op.delete key : Op K V σ).run cmp hash t =
          some (.rc (if Assoc.Has (Same cmp) key m then 0 else -1), t') := by
        rw [Op.run, hrun]
        rfl
      exact ⟨_, t', hanswer, rfl, c', f', hvalid', hiter'.trans hiter,
        herase ▸ Assoc.erase_perm hperm key⟩
  | clean =>
      obtain ⟨t', c', f', hrun, hvalid', hiter', hempty⟩ := hvalid.i2HashClean_eq hiter hchained
      exact ⟨.done, t', by rw [Op.run, hrun]; rfl, trivial, c', f', hvalid', hiter',
        hempty ▸ List.Perm.refl []⟩
  | numEntries =>
      have hnum := hvalid.i2HashNumEntries_eq hchained
      exact ⟨_, t, rfl, hnum.trans hperm.length_eq, c, f, hvalid, hiter, hperm⟩
  | iterate ifunc data =>
      obtain ⟨t', c', f', hrun, hvalid', hiter', -, hmap⟩ :=
        hvalid.i2HashIterate_eq hcmp hhash hiter hchained ifunc data
      have hanswer : (Op.iterate ifunc data).run cmp hash t =
          some (.iterated (visitEntries cmp ifunc (entries t c) (entries t c) data).data
            (visitEntries cmp ifunc (entries t c) (entries t c) data).events, t') := by
        rw [Op.run, hrun]
        rfl
      refine ⟨_, t', hanswer, ⟨_, hperm, rfl, rfl⟩, c', f', hvalid', hiter', ?_⟩
      rw [hmap, visitEntries_map, Op.next, mapAfter_eq, mapAfter_eq]
      exact hperm.filter _

/-- A sequence of calls gets answers of the map, as long as there are fewer than
2^32 entries. -/
theorem Refines.runOps_eq (h : Refines cmp hash t m) (ops : List (Op K V σ))
    (hfew : ∀ pre as t', pre <+: ops → runOps cmp hash t pre = some (as, t') →
      (mapAfterOps cmp m pre as).length < UInt32.size) :
    ∃ as t', runOps cmp hash t ops = some (as, t') ∧ Conforms cmp m ops as := by
  induction ops generalizing t m with
  | nil => exact ⟨[], t, rfl, trivial⟩
  | cons op ops ih =>
      have hlen : m.length < UInt32.size := hfew [] [] t List.nil_prefix rfl
      obtain ⟨a, t₁, hrun, hallowed, href⟩ := h.step hcmp hhash hlen op
      have hcons : ∀ {pre as t'}, runOps cmp hash t₁ pre = some (as, t') →
          runOps cmp hash t (op :: pre) = some (a :: as, t') := by
        intro pre as t' hruns
        rw [runOps, hrun, Option.bind_some, hruns]
        rfl
      obtain ⟨as, t', hruns, hconforms⟩ := ih href fun pre as t' hpre hruns =>
        hfew (op :: pre) (a :: as) t' ((List.prefix_cons_inj op).mpr hpre) (hcons hruns)
      exact ⟨a :: as, t', hcons hruns, hallowed, hconforms⟩

end Refine

/-- A call adds one entry at most. -/
theorem length_mapAfterOps_le (cmp : K → K → ℤ) (m : List (K × V)) (ops : List (Op K V σ))
    (as : List (Answer K V σ)) : (mapAfterOps cmp m ops as).length ≤ m.length + ops.length := by
  have hnext : ∀ (m : List (K × V)) (op : Op K V σ) (a : Answer K V σ),
      (op.next cmp m a).length ≤ m.length + 1 := by
    intro m op a
    cases op with
    | store key value mem =>
        cases a with
        | rc r =>
            rw [Op.next]
            split
            · rw [Assoc.length_put]
              split <;> omega
            · omega
        | _ => exact Nat.le_succ _
    | delete key => exact (List.length_filter_le _ m).trans (Nat.le_succ _)
    | clean => exact Nat.zero_le _
    | iterate ifunc data =>
        cases a with
        | iterated data' events => exact mapAfter_sublist.length_le.trans (Nat.le_succ _)
        | _ => exact Nat.le_succ _
    | _ => exact Nat.le_succ _
  induction ops generalizing m as with
  | nil => exact Nat.le_refl _
  | cons op ops ih =>
      cases as with
      | nil => exact Nat.le_add_right _ _
      | cons a as =>
          have hstep := ih (op.next cmp m a) as
          have hop := hnext m op a
          rw [mapAfterOps, List.length_cons]
          omega

/-! ### The two results -/

section Results

variable {cmp : K → K → ℤ} {hash : K → UInt32} [Inhabited K] [Inhabited V]
  (hcmp : Equivalence (Same cmp)) (hhash : ∀ x y, Same cmp x y → hash x = hash y)

include hcmp hhash in
/-- A new table answers every sequence of calls as a finite map that is empty at
first. -/
theorem runOps_conforms {hint : UInt32} {table buckets : Bool} {mem : Alloc}
    {t : I2Table K V} (hinit : i2HashInit hint table buckets mem = some t)
    (ops : List (Op K V σ))
    (hfew : ∀ pre as t', pre <+: ops → runOps cmp hash t pre = some (as, t') →
      (mapAfterOps cmp [] pre as).length < UInt32.size) :
    ∃ as t', runOps cmp hash t ops = some (as, t') ∧ Conforms cmp [] ops as :=
  (Refines.of_init hinit).runOps_eq hcmp hhash ops hfew

def deleteEach : I2HashIterateFunc (List UInt8) ℕ Unit := fun key _ data =>
  .delete key fun _ => .ret (true, data)

/-- Two keys of the same hash; memory runs out for a third. -/
def sampleOps : List (Op (List UInt8) ℕ Unit) :=
  [.store [1, 2] 10 ⟨true, true⟩, .store [2, 1] 11 ⟨true, true⟩, .store [3] 12 ⟨true, false⟩,
    .iterate deleteEach (), .numEntries]

theorem sampleTable :
    ∃ t : I2Table (List UInt8) ℕ, i2HashInit 2 true true ⟨true, true⟩ = some t :=
  Option.isSome_iff_exists.mp rfl

theorem runOps_conforms_sample :
    ∃ t, i2HashInit 2 true true ⟨true, true⟩ = some t ∧
      ∃ as t', runOps cmpatom hashatom t sampleOps = some (as, t') ∧
        Conforms cmpatom [] sampleOps as := by
  obtain ⟨t, hinit⟩ := sampleTable
  refine ⟨t, hinit, runOps_conforms cmpatom_equivalence hashatom_congr hinit sampleOps ?_⟩
  intro pre as t' hpre _
  have hlen := length_mapAfterOps_le cmpatom [] pre as
  have hpre := hpre.length_le
  have hops : sampleOps.length = 5 := rfl
  have hsize : 5 < UInt32.size := by decide
  rw [List.length_nil] at hlen
  omega

/-- Tables that calls lead to, with the map that the calls and their answers make. -/
inductive Reachable (cmp : K → K → ℤ) (hash : K → UInt32) : I2Table K V → List (K × V) → Prop
  | init {hint : UInt32} {table buckets : Bool} {mem : Alloc} {t : I2Table K V}
      (h : i2HashInit hint table buckets mem = some t) : Reachable cmp hash t []
  | step {t t' : I2Table K V} {m : List (K × V)} {σ : Type} {op : Op K V σ}
      {a : Answer K V σ} (h : Reachable cmp hash t m) (hlen : m.length < UInt32.size)
      (hrun : op.run cmp hash t = some (a, t')) : Reachable cmp hash t' (op.next cmp m a)

include hcmp hhash in
theorem Reachable.refines {t : I2Table K V} {m : List (K × V)} (h : Reachable cmp hash t m) :
    Refines cmp hash t m := by
  induction h with
  | init h => exact Refines.of_init h
  | step h hlen hrun ih =>
      obtain ⟨a', t'', hrun', -, href⟩ := ih.step hcmp hhash hlen _
      rw [hrun] at hrun'
      obtain ⟨rfl, rfl⟩ := Prod.mk.inj (Option.some.inj hrun')
      exact href

include hcmp hhash in
theorem Reachable.exists_store {t : I2Table K V} {m : List (K × V)}
    (h : Reachable cmp hash t m) (hlen : m.length < UInt32.size) (key : K) (value : V) :
    ∃ t', i2HashStore cmp hash t key value ⟨true, true⟩ = some (0, t') ∧
      Reachable cmp hash t' (Assoc.put (Same cmp) key value m) := by
  have hop : ∀ t', i2HashStore cmp hash t key value ⟨true, true⟩ = some (0, t') →
      (Op.store key value ⟨true, true⟩ : Op K V Unit).run cmp hash t = some (.rc 0, t') := by
    intro t' hrun
    rw [Op.run, hrun]
    rfl
  obtain ⟨c, f, hvalid, hiter, -⟩ := h.refines hcmp hhash
  obtain ⟨rc, t', c', f', hrun, -, -, hres⟩ :=
    hvalid.i2HashStore_eq hcmp hhash hiter key value ⟨true, true⟩
  rcases hres with ⟨rfl, -⟩ | ⟨-, -, hmem, -⟩
  · exact ⟨t', hrun, h.step hlen (hop t' hrun)⟩
  · exact absurd rfl hmem

/-- What an iteration over a table that stands for the map `m` does and leaves
behind. The entries take their turns in some order. -/
structure Iterated (cmp : K → K → ℤ) (hash : K → UInt32) (m : List (K × V))
    (r : IterRun K V σ) : Prop where
  iteration : ∃ order, order.Perm m ∧ Iteration cmp order order r.events
  once : (visits r.events).Pairwise fun x y => ¬Same cmp x y
  fetch : ∀ key, i2HashFetch cmp hash r.table key =
    some (Assoc.get (Same cmp) key (m.filter fun e => ∀ k ∈ deleted r.events, ¬Same cmp k e.1))
  nodes : ∃ c f, Valid cmp hash r.table c f ∧
    (entries r.table c).Perm (m.filter fun e => ∀ k ∈ deleted r.events, ¬Same cmp k e.1) ∧
    ∀ a ∈ chained r.table.size.toNat c, (r.table.nodes a).delete = false
  deleteNodes : r.table.deleteNodes = 0
  inIterate : r.table.inIterate = false

end Results

end I2util
