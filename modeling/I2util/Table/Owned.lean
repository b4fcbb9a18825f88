import I2util.Table.Memory

/-!
Programs with many tables: which block of the memory belongs to which of them.

The calls on different tables may alternate in any way, also in the middle of an
iteration: there a step is one call of the function, or one node that is unlinked.
-/

namespace I2util

open Heap

variable {K V : Type}

/-! ### Steps without an allocation -/

/-- What happens to a table without an allocation, at the end of an iteration too. -/
inductive StepInPlace (cmp : K → K → ℤ) (hash : K → UInt32) : I2Table K V → I2Table K V → Prop
  | delete {t t' : I2Table K V} (key : K) (rc : ℤ)
      (hrun : i2HashDelete cmp hash t key = some (rc, t')) : StepInPlace cmp hash t t'
  | clean {t t' : I2Table K V} (hrun : i2HashClean t = some t') : StepInPlace cmp hash t t'
  | start {t : I2Table K V} (hiter : t.inIterate = false) :
      StepInPlace cmp hash t { t with inIterate := true, deleteNodes := 0 }
  | purge {t : I2Table K V} {p : Link} {q : ℕ} (hiter : t.inIterate = true)
      (hcursor : Cursor t p) (hq : t.deref p = some q) (hleft : t.deleteNodes ≠ 0)
      (hdel : (t.nodes q).delete = true) : StepInPlace cmp hash t (purge t p q)
  | finish {t : I2Table K V} (hiter : t.inIterate = true) (hleft : t.deleteNodes = 0) :
      StepInPlace cmp hash t { t with inIterate := false }

section StepInPlace

open MemTable

variable {cmp : K → K → ℤ} {hash : K → UInt32} {t t' : I2Table K V}

theorem sameSize_unlink (t : I2Table K V) (p : Link) (q : ℕ) : SameSize t (unlink t p q) := by
  constructor <;> simp [unlink, freeBinding]

theorem sameSize_cleanBucket {i n : ℕ} (hrun : cleanBucket i n t = some t') : SameSize t t' := by
  induction n generalizing t with
  | zero => cases hrun
  | succ n ih =>
      rw [cleanBucket] at hrun
      split at hrun
      · exact Option.some.inj hrun ▸ .refl t
      · exact (sameSize_unlink t _ _).trans (ih hrun)

theorem sameSize_cleanBuckets {is : List ℕ} (hrun : cleanBuckets is t = some t') :
    SameSize t t' := by
  induction is generalizing t with
  | nil => exact Option.some.inj hrun ▸ .refl t
  | cons i is ih =>
      rw [cleanBuckets] at hrun
      split at hrun
      · exact Option.some.inj hrun ▸ .refl t
      · obtain ⟨t₁, hbucket, hrest⟩ := Option.bind_eq_some_iff.mp hrun
        exact (sameSize_cleanBucket hbucket).trans (ih hrest)

theorem StepInPlace.sameSize (hq : StepInPlace cmp hash t t') : SameSize t t' := by
  cases hq with
  | delete key rc hrun =>
      rw [i2HashDelete] at hrun
      split at hrun
      · cases hrun
      · cases hrun
        exact .refl _
      · split at hrun
        · cases hrun
          exact ⟨rfl, rfl, rfl⟩
        · cases hrun
          exact sameSize_unlink _ _ _
  | clean hrun =>
      rw [i2HashClean] at hrun
      split at hrun
      · cases hrun
      · split at hrun
        · cases hrun
        · rename_i t₁ hbuckets
          split at hrun
          · obtain rfl := Option.some.inj hrun
            exact sameSize_cleanBuckets hbuckets
          · cases hrun
  | start _ => exact ⟨rfl, rfl, rfl⟩
  | purge _ _ _ _ _ => exact (sameSize_unlink _ _ _).trans ⟨rfl, rfl, rfl⟩
  | finish _ _ => exact ⟨rfl, rfl, rfl⟩

theorem StepInPlace.step [Inhabited K] [Inhabited V] (hq : StepInPlace cmp hash t t') :
    Step cmp hash t t' := by
  cases hq with
  | delete key rc hrun =>
      have hcall : (Op.delete key : Op K V Unit).run cmp hash t = some (.rc rc, t') := by
        rw [Op.run, hrun]
        rfl
      exact .call hcall
  | clean hrun =>
      have hcall : (Op.clean : Op K V Unit).run cmp hash t = some (.done, t') := by
        rw [Op.run, hrun]
        rfl
      exact .call hcall
  | start hiter => exact .start hiter
  | purge hiter hcursor hq hleft hdel => exact .purge hiter hcursor hq hleft hdel
  | finish hiter hleft => exact .finish hiter hleft

end StepInPlace

/-! ### Programs -/

theorem Valid.i2HashStore_isSome [Inhabited K] [Inhabited V] {cmp₀ cmp : K → K → ℤ}
    {hash : K → UInt32} {t : I2Table K V} {c : ℕ → List ℕ} {f : List ℕ} (h : Valid cmp₀ hash t c f)
    (hiter : t.inIterate = false) (key : K) (value : V) (mem : Alloc) :
    (I2util.i2HashStore cmp hash t key value mem).isSome = true := by
  rw [I2util.i2HashStore, if_neg (by simp [hiter]), if_neg h.shape.size_max]
  rcases h.shape.search_spec rfl (h.shape.index_lt key) fun b => cmp key b.key = 0 with
    ⟨pre, q, post, -, -, hsearch⟩ | ⟨-, p, hsearch⟩
  · rw [hsearch]
    rfl
  · rw [hsearch]
    rcases h.shape.of_allocBinding mem with ⟨t₁, halloc, -⟩ | ⟨t₁, q, f', halloc, -⟩
    · rw [halloc]
      rfl
    · rw [halloc]
      rfl

abbrev TableProgram (K V : Type) := Heap.Program Cell (MemTable K V) ℕ

namespace TableProgram

open Heap.Program

variable [Inhabited K] [Inhabited V] {s s' : TableProgram K V} {h₀ : Heap Cell} {i j : ℕ}
  {m m' : MemTable K V}

/-- What the program does with the table in the variable `i`. A new table goes to a variable
that is not in use, and no table gets 2^32 entries. -/
inductive Step (s : TableProgram K V) (i : ℕ) : TableProgram K V → Prop
  | init (hint : UInt32) (cmp : K → K → ℤ) (hash : K → UInt32) (o : Option (MemTable K V))
      (h' : Heap Cell) (hvar : s.var i = none)
      (hrun : MemTable.i2HashInit hint cmp hash s.heap = some (o, h')) : Step s i (s.put i h' o)
  | store (m m' : MemTable K V) (key : K) (value : V) (rc : ℤ) (h' : Heap Cell)
      (hm : s.var i = some m) (hrun : m.i2HashStore key value s.heap = some (rc, m', h'))
      (hfew : Few m'.toI2Table) : Step s i (s.put i h' (some m'))
  | inPlace (m : MemTable K V) (t : I2Table K V) (hm : s.var i = some m)
      (hinPlace : StepInPlace m.cmp m.hash m.toI2Table t) (hfew : Few t) :
      Step s i (s.put i s.heap (some { m with toI2Table := t }))
  | close (m : MemTable K V) (h' : Heap Cell) (hm : s.var i = some m)
      (hrun : m.i2HashClose s.heap = some h') : Step s i (s.put i h' none)

/-- The states of the program, which has no tables when it begins. -/
inductive Reached (h₀ : Heap Cell) : TableProgram K V → Prop
  | start : Reached h₀ ⟨h₀, fun _ => none⟩
  | step (i : ℕ) (s s' : TableProgram K V) (hr : Reached h₀ s) (hs : Step s i s') : Reached h₀ s'

structure Sound (h : Heap Cell) (m : MemTable K V) : Prop where
  reached : I2util.Reached m.cmp m.hash m.toI2Table
  backed : m.Backed h

theorem Sound.valid {h : Heap Cell} (hs : Sound h m) :
    ∃ c f, Valid (fun _ _ => 1) m.hash m.toI2Table c f ∧
      (chained m.size.toNat c).length < UInt32.size :=
  hs.reached.exists_valid (.apart m.cmp m.hash)

theorem Sound.hint_pos {h : Heap Cell} (hs : Sound h m) : 0 < m.hint := by
  obtain ⟨c, f, hvalid, -⟩ := hs.valid
  exact hvalid.shape.hint_pos

structure Changes (s : TableProgram K V) (i : ℕ) (h' : Heap Cell) (o : Option (MemTable K V)) :
    Prop where
  exchange : Exchange s.heap (blocksOf MemTable.blocks (s.var i)) h' (blocksOf MemTable.blocks o)
  sound : ∀ m, o = some m → Sound h' m

theorem Step.changes (hs : Step s i s') (hsound : ∀ m, s.var i = some m → Sound s.heap m) :
    ∃ h' o, s' = s.put i h' o ∧ Changes s i h' o := by
  cases hs with
  | init hint cmp hash o h' hvar hrun =>
      refine ⟨h', o, rfl, ?_⟩
      obtain ⟨o', h'', hrun', hmade⟩ :=
        @MemTable.i2HashInit_spec K V _ _ hint cmp hash s.heap
      obtain ⟨rfl, rfl⟩ := Prod.mk.inj (Option.some.inj (hrun.symm.trans hrun'))
      refine ⟨by rw [hvar]; exact hmade.exchange, fun m ho => ⟨?_, hmade.backed m ho⟩⟩
      obtain ⟨mem, htable⟩ := hmade.table
      rw [ho] at htable
      exact .init htable
  | store m m' key value rc h' hm hrun hfew =>
      have hb := hsound m hm
      obtain ⟨htable, hgrown⟩ := MemTable.i2HashStore_spec hb.backed hb.hint_pos key value
      have hm' := hgrown rc m' h' hrun
      rw [hrun] at htable
      have hcall : (Op.store key value (answers s.heap) : Op K V Unit).run m.cmp m.hash
          m.toI2Table = some (.rc rc, m'.toI2Table) := by
        rw [Op.run, ← htable]
        rfl
      refine ⟨h', some m', rfl, by rw [hm]; exact hm'.exchange, fun m'' ho => ?_⟩
      obtain rfl := Option.some.inj ho
      refine ⟨?_, hm'.backed⟩
      rw [hm'.cmp, hm'.hash]
      exact hb.reached.step (.call hcall) hfew
  | inPlace m t hm hinPlace hfew =>
      have hb := hsound m hm
      have hgrown := MemTable.Grown.of_sameSize hb.backed hinPlace.sameSize
      refine ⟨s.heap, some _, rfl, by rw [hm]; exact hgrown.exchange, fun m' ho => ?_⟩
      obtain rfl := Option.some.inj ho
      exact ⟨hb.reached.step hinPlace.step hfew, hgrown.backed⟩
  | close m h' hm hrun =>
      have hb := hsound m hm
      rw [MemTable.i2HashClose] at hrun
      split at hrun
      · cases hrun
      · obtain ⟨h'', hfree, hfreed⟩ := MemTable.freeAll_spec hb.backed
        obtain rfl := Option.some.inj (hrun.symm.trans hfree)
        exact ⟨h', none, rfl, by rw [hm]; exact hfreed, fun _ ho => by cases ho⟩

theorem Reached.owned (hr : Reached h₀ s) :
    s.Owned MemTable.blocks h₀ ∧ ∀ i m, s.var i = some m → Sound s.heap m := by
  induction hr with
  | start => exact ⟨.start _ h₀, fun _ _ hm => by cases hm⟩
  | step i s s' _ hs ih =>
      obtain ⟨ho, hsound⟩ := ih
      obtain ⟨h', o, rfl, hc⟩ := hs.changes (hsound i)
      refine ⟨ho.put hc.exchange, fun j m hm => ?_⟩
      rcases put_var_cases hm with ⟨-, hm⟩ | ⟨hj, hm⟩
      · exact hc.sound m hm
      · have hold := hsound j m hm
        exact ⟨hold.reached, hold.backed.congr (ho.frame hc.exchange (Ne.symm hj) hm)⟩

/-- The nodes of a table, on its chains and on its free list, are in its blocks. -/
def Placed (h : Heap Cell) (m : MemTable K V) : Prop :=
  ∃ c f, Intact m.hash m.toI2Table c f ∧
    ∀ q ∈ chained m.size.toNat c ++ f, m.NodeAt h q

theorem Sound.placed {h : Heap Cell} (hs : Sound h m) : Placed h m := by
  obtain ⟨c, f, hvalid, hlen⟩ := hs.valid
  have hintact := hvalid.cells_intact hlen
  exact ⟨c, f, hintact, fun q hq =>
    hs.backed.nodeAt hs.hint_pos ((hintact.allocated q).mp hq)⟩

/-- Nothing is written or freed that is not there. -/
theorem Sound.total {h : Heap Cell} (hs : Sound h m) (hiter : m.inIterate = false) :
    (∀ key value, (m.i2HashStore key value h).isSome = true) ∧ (m.i2HashClose h).isSome = true := by
  refine ⟨fun key value => ?_, ?_⟩
  · obtain ⟨c, f, hvalid, -⟩ := hs.valid
    have hsome :=
      @Valid.i2HashStore_isSome _ _ _ _ _ m.cmp _ _ _ _ hvalid hiter key value (answers h)
    rw [← (MemTable.i2HashStore_spec hs.backed hs.hint_pos key value).1, Option.isSome_map] at hsome
    exact hsome
  · obtain ⟨h', hclose, -⟩ := MemTable.i2HashClose_spec hs.backed hiter
    rw [hclose]
    rfl

theorem Reached.step_frame (hr : Reached h₀ s) (hs : Step s i s') (hj : j ≠ i)
    (hm : s.var j = some m) :
    s'.var j = some m ∧ ∀ p ∈ m.blocks, s'.heap.mem p = s.heap.mem p := by
  obtain ⟨ho, hsound⟩ := hr.owned
  obtain ⟨h', o, rfl, hc⟩ := hs.changes (hsound i)
  exact ⟨(put_var_of_ne s hj h' o).trans hm, ho.frame hc.exchange hj.symm hm⟩

end TableProgram

/-- In every run of a program with tables each block belongs to one table, the nodes of a
table are in its blocks, nothing is written outside of a block or freed twice, and what
the program does with a table is no concern of the others. -/
theorem tables_tidy [Inhabited K] [Inhabited V] {h₀ : Heap Cell} {s : TableProgram K V}
    (hr : TableProgram.Reached h₀ s) :
    s.Tidy MemTable.blocks h₀ ∧ ((∀ i, s.var i = none) → s.heap.mem = h₀.mem) ∧
      (∀ i m, s.var i = some m → TableProgram.Placed s.heap m ∧ (m.inIterate = false →
        (∀ key value, (m.i2HashStore key value s.heap).isSome = true) ∧
          (m.i2HashClose s.heap).isSome = true)) ∧
      ∀ i s', TableProgram.Step s i s' → ∀ j m, j ≠ i → s.var j = some m →
        s'.var j = some m ∧ ∀ p ∈ m.blocks, s'.heap.mem p = s.heap.mem p :=
  ⟨hr.owned.1.tidy, hr.owned.1.tidy.mem_eq,
    fun i m hm => ⟨(hr.owned.2 i m hm).placed, (hr.owned.2 i m hm).total⟩,
    fun _ _ hs _ _ hj hm => hr.step_frame hs hj hm⟩

def noBlocks : Heap Cell := ⟨fun _ => none, 0, fun _ => true, fun _ _ => rfl⟩

theorem tables_tidy_two :
    ∃ s : TableProgram (List UInt8) ℕ, s.var 0 = none ∧ (s.var 1).isSome = true ∧
      s.Tidy MemTable.blocks noBlocks ∧
      ∀ m, s.var 1 = some m → TableProgram.Placed s.heap m := by
  have hfirst : TableProgram.Reached noBlocks (_ : TableProgram (List UInt8) ℕ) :=
    .step 0 _ _ .start (.init 1 cmpatom hashatom _ _ rfl rfl)
  have hboth : TableProgram.Reached noBlocks _ :=
    .step 1 _ _ hfirst (.init 2 cmpatom hashatom _ _ rfl rfl)
  have hclosed : TableProgram.Reached noBlocks _ := .step 0 _ _ hboth (.close _ _ rfl rfl)
  have htidy := tables_tidy hclosed
  exact ⟨_, rfl, rfl, htidy.1, fun m hm => (htidy.2.2.1 1 m hm).1⟩

end I2util
