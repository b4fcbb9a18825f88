import I2util.Table.Refine
import Mathlib.Logic.Relation

/-!
The nodes of a table at every moment.

A step is a call, the start of an iteration, a marked node that is taken out at
the end of one, or the end itself. While an iteration is running the steps are the
calls of the function, and then what the second loop does: a run of `I2HashIterate`
is its start, a path of such steps, and its end.
-/

namespace I2util

variable {K V σ : Type}

section Definitions

/-- The links that `p` goes through in the loops over the chains. -/
inductive Cursor (t : I2Table K V) : Link → Prop
  | bucket {i : ℕ} (hi : i < t.size.toNat) : Cursor t (.bucket i)
  | next {p : Link} {q : ℕ} (h : Cursor t p) (hq : t.deref p = some q) : Cursor t (.next q)

variable [Inhabited K] [Inhabited V] (cmp : K → K → ℤ) (hash : K → UInt32)

inductive Step : I2Table K V → I2Table K V → Prop
  | call {t t' : I2Table K V} {σ : Type} {op : Op K V σ} {a : Answer K V σ}
      (hrun : op.run cmp hash t = some (a, t')) : Step t t'
  | start {t : I2Table K V} (hiter : t.inIterate = false) :
      Step t { t with inIterate := true, deleteNodes := 0 }
  | purge {t : I2Table K V} {p : Link} {q : ℕ} (hiter : t.inIterate = true)
      (hcursor : Cursor t p) (hq : t.deref p = some q) (hleft : t.deleteNodes ≠ 0)
      (hdel : (t.nodes q).delete = true) : Step t (purge t p q)
  | finish {t : I2Table K V} (hiter : t.inIterate = true) (hleft : t.deleteNodes = 0) :
      Step t { t with inIterate := false }

def Few (t : I2Table K V) : Prop :=
  ∀ c : ℕ → List ℕ, (∀ i < t.size.toNat, Linked.IsList .next t.deref (.bucket i) (c i)) →
    (chained t.size.toNat c).length < UInt32.size

/-- The tables that steps lead to from a new one, with fewer than 2^32 entries at
every moment. -/
inductive Reached : I2Table K V → Prop
  | init {hint : UInt32} {table buckets : Bool} {mem : Alloc} {t : I2Table K V}
      (hrun : i2HashInit hint table buckets mem = some t) : Reached t
  | step {t t' : I2Table K V} (h : Reached t) (hstep : Step cmp hash t t') (hfew : Few t') :
      Reached t'

/-- The chains `c` and the free list `f` of a table whose nodes are all where they
belong. -/
structure Intact (t : I2Table K V) (c : ℕ → List ℕ) (f : List ℕ) : Prop where
  bucket : ∀ i < t.size.toNat, Linked.IsList .next t.deref (.bucket i) (c i)
  free : Linked.IsList .next t.deref .freelist f
  once : (chained t.size.toNat c ++ f).Nodup
  allocated : ∀ a, a ∈ chained t.size.toNat c ++ f ↔ a < t.numAlist * t.hint
  home : ∀ i < t.size.toNat, ∀ a ∈ c i, t.index hash (t.nodes a).key = i
  length : t.length.toNat = (chained t.size.toNat c).length
  deleteNodes : t.deleteNodes.toNat =
    (chained t.size.toNat c).countP fun a => (t.nodes a).delete
  idle : t.inIterate = false → t.deleteNodes = 0
  used : t.numAlist ≤ t.sizeAlist
  /-- `table->alist[table->num_alist++] = t` stays in the array. -/
  slot : ∀ mem t', allocFreelist t mem = (0, t') → t.numAlist < t'.sizeAlist

/-- At most one unmarked node holds a key. -/
def OneEach (t : I2Table K V) (c : ℕ → List ℕ) : Prop :=
  (chained t.size.toNat c).Pairwise fun a b =>
    (t.nodes a).delete = false → (t.nodes b).delete = false →
      ¬Same cmp (t.nodes a).key (t.nodes b).key

def Running (t t' : I2Table K V) : Prop :=
  Step cmp hash t t' ∧ t.inIterate = true ∧ t'.inIterate = true

end Definitions

/-- Keys that `cmp₀` does not tell apart are the same for the table. -/
structure Finer (cmp₀ cmp : K → K → ℤ) (hash : K → UInt32) : Prop where
  symm : ∀ {x y}, Same cmp₀ x y → Same cmp₀ y x
  same : ∀ {x y}, Same cmp₀ x y → Same cmp x y
  hash : ∀ {x y}, Same cmp₀ x y → hash x = hash y

theorem Finer.refl {cmp : K → K → ℤ} {hash : K → UInt32} (hcmp : Equivalence (Same cmp))
    (hhash : ∀ x y, Same cmp x y → hash x = hash y) : Finer cmp cmp hash :=
  ⟨hcmp.symm, id, fun {x y} => hhash x y⟩

/-- Without any two keys that are the same nothing is asked of `cmp` and `hash`. -/
theorem Finer.apart (cmp : K → K → ℤ) (hash : K → UInt32) : Finer (fun _ _ => 1) cmp hash where
  symm := by
    intro x y h
    cases h
  same := by
    intro x y h
    cases h
  hash := by
    intro x y h
    cases h

/-! ### Cursors -/

section Cursors

variable {cmp : K → K → ℤ} {hash : K → UInt32} {t : I2Table K V} {c : ℕ → List ℕ} {f : List ℕ}

theorem Cursor.exists_split (hshape : Shape cmp hash t c f t.capacity) {p : Link}
    (h : Cursor t p) :
    ∃ i < t.size.toNat, ∃ pre post, c i = pre ++ post ∧
      p = Linked.linkAfter .next (.bucket i) pre := by
  induction h with
  | @bucket i hi => exact ⟨i, hi, [], c i, rfl, rfl⟩
  | next h hq ih =>
      obtain ⟨i, hi, pre, post, hc, rfl⟩ := ih
      have hhead := hshape.deref_linkAfter hi hc
      rw [hq] at hhead
      obtain ⟨post, rfl⟩ := List.head?_eq_some_iff.mp hhead.symm
      exact ⟨i, hi, pre ++ [_], post, by simp [hc], Linked.linkAfter_append.symm⟩

theorem Cursor.exists_node (hshape : Shape cmp hash t c f t.capacity) {p : Link} {q : ℕ}
    (h : Cursor t p) (hq : t.deref p = some q) :
    ∃ i < t.size.toNat, ∃ pre post, c i = pre ++ q :: post ∧
      p = Linked.linkAfter .next (.bucket i) pre := by
  obtain ⟨i, hi, pre, post, hc, rfl⟩ := h.exists_split hshape
  have hhead := hshape.deref_linkAfter hi hc
  rw [hq] at hhead
  obtain ⟨post, rfl⟩ := List.head?_eq_some_iff.mp hhead.symm
  exact ⟨i, hi, pre, post, hc, rfl⟩

theorem Cursor.of_split (hshape : Shape cmp hash t c f t.capacity) {i : ℕ}
    (hi : i < t.size.toNat) {pre post : List ℕ} (hc : c i = pre ++ post) :
    Cursor t (Linked.linkAfter .next (.bucket i) pre) := by
  induction pre using List.reverseRecOn generalizing post with
  | nil => exact .bucket hi
  | append_singleton pre q ih =>
      have hc' : c i = pre ++ q :: post := by simpa using hc
      rw [Linked.linkAfter_append]
      exact (ih hc').next (hshape.deref_linkAfter hi hc')

theorem chained_unique {c' : ℕ → List ℕ}
    (hc : ∀ i < t.size.toNat, Linked.IsList .next t.deref (.bucket i) (c i))
    (hc' : ∀ i < t.size.toNat, Linked.IsList .next t.deref (.bucket i) (c' i)) :
    chained t.size.toNat c = chained t.size.toNat c' := by
  apply List.flatMap_congr
  intro i hi
  have hi : i < t.size.toNat := List.mem_range.mp hi
  exact (hc i hi).unique (hc' i hi)

theorem Valid.few (h : Valid cmp hash t c f)
    (hlen : (chained t.size.toNat c).length < UInt32.size) : Few t := by
  intro c' hc'
  rwa [chained_unique hc' h.shape.bucket]

end Cursors

/-! ### What a valid table shows -/

section Shown

variable {cmp : K → K → ℤ} {hash : K → UInt32} {t t' : I2Table K V} {c : ℕ → List ℕ}
  {f : List ℕ} [Inhabited K] [Inhabited V]

theorem pushNew_sizeAlist (n m : ℕ) :
    ((List.range m).foldl (fun t i => pushNew t (n + i)) t).sizeAlist = t.sizeAlist := by
  induction m with
  | zero => rfl
  | succ m ih =>
      rw [List.range_succ, List.foldl_append, List.foldl_cons, List.foldl_nil]
      simpa [pushNew, freeBinding] using ih

/-- The array of the blocks has grown before a block is entered. -/
theorem allocFreelist_slot (hle : t.numAlist ≤ t.sizeAlist) (hhint : 0 < t.hint) {mem : Alloc}
    (hrun : allocFreelist t mem = (0, t')) : t.numAlist < t'.sizeAlist := by
  cases hrealloc : mem.realloc with
  | false => simp [allocFreelist, hle, hrealloc] at hrun
  | true =>
      cases hcalloc : mem.calloc with
      | false => simp [allocFreelist, hle, hrealloc, hcalloc] at hrun
      | true =>
          have hgrown : t'.sizeAlist = t.sizeAlist + t.hint := by
            simp only [allocFreelist, hle, hrealloc, hcalloc] at hrun
            obtain ⟨-, rfl⟩ := Prod.mk.inj hrun
            rw [pushNew_sizeAlist]
            simp
          omega

theorem Valid.cells_intact (h : Valid cmp hash t c f)
    (hlen : (chained t.size.toNat c).length < UInt32.size) : Intact hash t c f := by
  have hle := @List.countP_le_length _ (fun a => (t.nodes a).delete) (chained t.size.toNat c)
  constructor
  case bucket => exact h.shape.bucket
  case free => exact h.shape.free
  case once => exact h.shape.nodup
  case allocated =>
    intro a
    rw [h.shape.perm.mem_iff, List.mem_range]
    rfl
  case home => exact h.shape.home
  case length => rw [h.shape.length_eq, UInt32.toNat_ofNat_of_lt' hlen]
  case deleteNodes => rw [h.delete_eq, UInt32.toNat_ofNat_of_lt' (lt_of_le_of_lt hle hlen)]
  case idle => exact fun hiter => (h.deleteNodes_eq_zero hlen).mpr (h.idle hiter)
  case used => exact h.shape.alist_le
  case slot => exact fun mem t' hrun => allocFreelist_slot h.shape.alist_le h.shape.hint_pos hrun

end Shown

/-! ### Calls -/

section Calls

variable {cmp₀ cmp : K → K → ℤ} {hash : K → UInt32} {t t' : I2Table K V} {c : ℕ → List ℕ}
  {f : List ℕ}

theorem Valid.i2HashDelete (h : Valid cmp₀ hash t c f) {key : K} {rc : ℤ}
    (hrun : i2HashDelete cmp hash t key = some (rc, t')) :
    ∃ c' f', Valid cmp₀ hash t' c' f' ∧
      (t.inIterate = true → t'.size = t.size ∧ c' = c) := by
  have hi := h.shape.index_lt key
  rw [I2util.i2HashDelete] at hrun
  rcases h.shape.search_spec rfl hi fun b => !b.delete && cmp key b.key = 0 with
    ⟨pre, q, post, hc, htest, hsearch⟩ | ⟨-, p, hsearch⟩
  · have hlive : (t.nodes q).delete = false := by
      simp only [Bool.and_eq_true, Bool.not_eq_true'] at htest
      exact htest.1
    rw [hsearch] at hrun
    cases hiter : t.inIterate with
    | true =>
        simp only [hiter] at hrun
        cases hrun
        exact ⟨c, f, h.mark hi hc hlive hiter, fun _ => ⟨rfl, rfl⟩⟩
    | false =>
        simp only [hiter] at hrun
        cases hrun
        exact ⟨_, _, h.unlink hi hc hiter, fun hno => by cases hno⟩
  · rw [hsearch] at hrun
    cases hrun
    exact ⟨c, f, h, fun _ => ⟨rfl, rfl⟩⟩

variable [Inhabited K] [Inhabited V]

theorem Valid.i2HashStore (hfiner : Finer cmp₀ cmp hash) (h : Valid cmp₀ hash t c f) {key : K}
    {value : V} {mem : Alloc} {rc : ℤ}
    (hrun : i2HashStore cmp hash t key value mem = some (rc, t')) :
    ∃ c' f', Valid cmp₀ hash t' c' f' := by
  have hi := h.shape.index_lt key
  rw [I2util.i2HashStore] at hrun
  cases hiter : t.inIterate with
  | true => simp [hiter] at hrun
  | false =>
      rw [if_neg (by simp [hiter]), if_neg h.shape.size_max] at hrun
      rcases h.shape.search_spec rfl hi fun b => cmp key b.key = 0 with
        ⟨pre, q, post, hc, -, hsearch⟩ | ⟨htest, p, hsearch⟩
      · rw [hsearch] at hrun
        cases hrun
        exact ⟨c, f, h.setValue q value⟩
      · rw [hsearch] at hrun
        rcases h.shape.of_allocBinding mem with ⟨t₁, halloc, -, -, hshape, hkeeps⟩ |
          ⟨t₁, q, f', halloc, hshape, hkeeps⟩
        · simp only [halloc] at hrun
          cases hrun
          exact ⟨c, f, h.of_keeps hshape hkeeps⟩
        · have hnew : ∀ a ∈ chained t₁.size.toNat c, ¬Same cmp₀ key (t₁.nodes a).key := by
            intro a ha hsame
            rw [hkeeps.size] at ha
            rw [hkeeps.key a ha] at hsame
            obtain ⟨j, hj, haj⟩ := mem_chained.mp ha
            have hindex : t.index hash key = j := by
              rw [← h.shape.home j hj a haj, I2Table.index, I2Table.index, hfiner.hash hsame]
            subst hindex
            have hcmp : cmp key (t.nodes a).key = 0 := hfiner.same hsame
            simpa [hcmp] using htest a haj
          have hindex : (takeFree t₁ q).index hash key = t₁.index hash key := by
            simp [I2Table.index, takeFree]
          simp only [halloc, hindex] at hrun
          cases hrun
          have hvalid := h.of_keeps hshape hkeeps
          exact ⟨_, _, (hvalid.of_insert hfiner.symm (hkeeps.inIterate.trans hiter) key value
            hnew).1⟩

/-- While an iteration is running no node is added to the chains. -/
theorem Valid.running (h : Valid cmp₀ hash t c f) (hrun : Running cmp hash t t') :
    ∃ c' f', Valid cmp₀ hash t' c' f' ∧ t'.size = t.size ∧
      (chained t'.size.toNat c').length ≤ (chained t.size.toNat c).length := by
  obtain ⟨hstep, hiter, hiter'⟩ := hrun
  cases hstep with
  | @call _ _ op a hrun =>
      cases op with
      | store key value mem => simp [Op.run, I2util.i2HashStore, hiter] at hrun
      | fetch key =>
          obtain ⟨v, -, hu⟩ := Option.map_eq_some_iff.mp hrun
          obtain ⟨-, rfl⟩ := Prod.mk.inj hu
          exact ⟨c, f, h, rfl, le_refl _⟩
      | delete key =>
          obtain ⟨⟨rc, u⟩, hdelete, hu⟩ := Option.map_eq_some_iff.mp hrun
          obtain ⟨-, rfl⟩ := Prod.mk.inj hu
          obtain ⟨c', f', hvalid, hsame⟩ := h.i2HashDelete hdelete
          obtain ⟨hsize, rfl⟩ := hsame hiter
          exact ⟨c', f', hvalid, hsize, by rw [hsize]⟩
      | clean => simp [Op.run, i2HashClean, hiter] at hrun
      | numEntries =>
          obtain ⟨-, rfl⟩ := Prod.mk.inj (Option.some.inj hrun)
          exact ⟨c, f, h, rfl, le_refl _⟩
      | iterate ifunc data => simp [Op.run, i2HashIterate, hiter] at hrun
  | start hidle => simp [hidle] at hiter
  | purge _ hcursor hq hleft hdel =>
      obtain ⟨i, hi, pre, post, hc, rfl⟩ := hcursor.exists_node h.shape hq
      have hpurged := h.purged_step hiter hi hc hdel
      exact ⟨_, _, hpurged.valid, hpurged.size, hpurged.length⟩
  | finish => cases hiter'

theorem Valid.runs (h : Valid cmp₀ hash t c f)
    (hpath : Relation.ReflTransGen (Running cmp hash) t t') :
    ∃ c' f', Valid cmp₀ hash t' c' f' ∧ t'.size = t.size ∧
      (chained t'.size.toNat c').length ≤ (chained t.size.toNat c).length := by
  induction hpath with
  | refl => exact ⟨c, f, h, rfl, le_refl _⟩
  | tail _ hrun ih =>
      obtain ⟨c₁, f₁, hvalid₁, hsize₁, hle₁⟩ := ih
      obtain ⟨c₂, f₂, hvalid₂, hsize₂, hle₂⟩ := hvalid₁.running hrun
      exact ⟨c₂, f₂, hvalid₂, hsize₂.trans hsize₁, hle₂.trans hle₁⟩

end Calls

/-! ### The steps of an iteration -/

section Iteration

variable {cmp₀ cmp : K → K → ℤ} {hash : K → UInt32} {t t' : I2Table K V} {c : ℕ → List ℕ}
  {f : List ℕ}

theorem i2HashDelete_inIterate {key : K} {rc : ℤ}
    (hrun : i2HashDelete cmp hash t key = some (rc, t')) : t'.inIterate = t.inIterate := by
  rw [i2HashDelete] at hrun
  split at hrun
  · cases hrun
  · cases hrun
    rfl
  · split at hrun
    · cases hrun
      rfl
    · cases hrun
      exact Shape.unlink_inIterate ..

variable [Inhabited K] [Inhabited V]

theorem TableProg.running {α : Type} {prog : TableProg K V α}
    {r : α × I2Table K V × List (Event K V)} (hrun : prog.run cmp hash t = some r)
    (hiter : t.inIterate = true) :
    Relation.ReflTransGen (Running cmp hash) t r.2.1 ∧ r.2.1.inIterate = true := by
  induction prog generalizing t r with
  | ret a =>
      cases hrun
      exact ⟨.refl, hiter⟩
  | numEntries k ih =>
      obtain ⟨s, hs, rfl⟩ := Option.map_eq_some_iff.mp hrun
      have hpath := ih _ hs hiter
      exact hpath
  | fetch key k ih =>
      rw [run] at hrun
      split at hrun
      · cases hrun
      · obtain ⟨s, hs, rfl⟩ := Option.map_eq_some_iff.mp hrun
        have hpath := ih _ hs hiter
        exact hpath
  | delete key k ih =>
      rw [run] at hrun
      split at hrun
      · cases hrun
      · rename_i rc t₁ hdelete
        obtain ⟨s, hs, rfl⟩ := Option.map_eq_some_iff.mp hrun
        have hiter₁ := (i2HashDelete_inIterate hdelete).trans hiter
        obtain ⟨hpath, hend⟩ := ih _ hs hiter₁
        have hcall : (Op.delete key : Op K V Unit).run cmp hash t = some (.rc rc, t₁) := by
          rw [Op.run, hdelete]
          rfl
        exact ⟨hpath.head ⟨.call hcall, hiter, hiter₁⟩, hend⟩

variable {ifunc : I2HashIterateFunc K V σ} {data : σ} {r : IterRun K V σ}

theorem visitChain_running {n : ℕ} {q : Option ℕ}
    (hrun : visitChain cmp hash ifunc n q t data = some r) (hiter : t.inIterate = true) :
    Relation.ReflTransGen (Running cmp hash) t r.table ∧ r.table.inIterate = true := by
  induction n generalizing q t data r with
  | zero => cases hrun
  | succ n ih =>
      cases q with
      | none =>
          cases hrun
          exact ⟨.refl, hiter⟩
      | some q =>
          rw [visitChain] at hrun
          split at hrun
          · exact ih hrun hiter
          · split at hrun
            · cases hrun
            · rename_i r₁ hnode
              obtain ⟨s, hs, rfl⟩ := Option.map_eq_some_iff.mp hnode
              obtain ⟨hpath, hend⟩ := TableProg.running hs hiter
              split at hrun
              · obtain ⟨r₂, hrest, rfl⟩ := Option.map_eq_some_iff.mp hrun
                obtain ⟨hpath', hend'⟩ := ih hrest hend
                exact ⟨hpath.trans hpath', hend'⟩
              · cases hrun
                exact ⟨hpath, hend⟩

theorem visitBuckets_running {is : List ℕ}
    (hrun : visitBuckets cmp hash ifunc is t data = some r) (hiter : t.inIterate = true) :
    Relation.ReflTransGen (Running cmp hash) t r.table ∧ r.table.inIterate = true := by
  induction is generalizing t data r with
  | nil =>
      cases hrun
      exact ⟨.refl, hiter⟩
  | cons i is ih =>
      rw [visitBuckets] at hrun
      split at hrun
      · cases hrun
      · rename_i r₁ hchain
        obtain ⟨hpath, hend⟩ := visitChain_running hchain hiter
        split at hrun
        · obtain ⟨r₂, hrest, rfl⟩ := Option.map_eq_some_iff.mp hrun
          obtain ⟨hpath', hend'⟩ := ih hrest hend
          exact ⟨hpath.trans hpath', hend'⟩
        · cases hrun
          exact ⟨hpath, hend⟩

theorem purgeChain_running {n i : ℕ} {pre post : List ℕ} (h : Valid cmp₀ hash t c f)
    (hiter : t.inIterate = true) (hi : i < t.size.toNat) (hc : c i = pre ++ post)
    (hrun : purgeChain n (Linked.linkAfter .next (.bucket i) pre) t = some t') :
    Relation.ReflTransGen (Running cmp hash) t t' ∧ t'.inIterate = true ∧
      t'.size = t.size ∧ ∃ c' f', Valid cmp₀ hash t' c' f' := by
  induction n generalizing t c f pre post with
  | zero => cases hrun
  | succ n ih =>
      have hhead := h.shape.deref_linkAfter hi hc
      rw [purgeChain] at hrun
      cases post with
      | nil =>
          simp only [hhead, List.head?_nil] at hrun
          cases hrun
          exact ⟨.refl, hiter, rfl, c, f, h⟩
      | cons q post =>
          simp only [hhead, List.head?_cons] at hrun
          split at hrun
          · cases hrun
            exact ⟨.refl, hiter, rfl, c, f, h⟩
          · rename_i hleft
            split at hrun
            · rename_i hdel
              have hvalid := (h.of_purge hiter hi hc hdel).1
              have hpurge : Running cmp hash t
                  (purge t (Linked.linkAfter .next (.bucket i) pre) q) :=
                ⟨.purge hiter (.of_split h.shape hi hc) hhead hleft hdel, hiter, by simpa⟩
              obtain ⟨hpath, hend, hsize, hrest⟩ := ih hvalid (by simpa) (by simpa)
                (Function.update_self ..) hrun
              exact ⟨hpath.head hpurge, hend, by simpa using hsize, hrest⟩
            · have hc' : c i = (pre ++ [q]) ++ post := by simp [hc]
              rw [← @Linked.linkAfter_append _ _ Link.next (.bucket i) pre] at hrun
              exact ih h hiter hi hc' hrun

theorem purgeBuckets_running {is : List ℕ} (h : Valid cmp₀ hash t c f)
    (hiter : t.inIterate = true) (his : ∀ i ∈ is, i < t.size.toNat)
    (hrun : purgeBuckets is t = some t') :
    Relation.ReflTransGen (Running cmp hash) t t' ∧ t'.inIterate = true := by
  induction is generalizing t c f with
  | nil =>
      cases hrun
      exact ⟨.refl, hiter⟩
  | cons i is ih =>
      rw [purgeBuckets] at hrun
      split at hrun
      · cases hrun
        exact ⟨.refl, hiter⟩
      · obtain ⟨t₁, hchain, hrest⟩ := Option.bind_eq_some_iff.mp hrun
        obtain ⟨hpath, hend, hsize, c', f', hvalid⟩ :=
          purgeChain_running h hiter (his i List.mem_cons_self) (List.nil_append _).symm hchain
        obtain ⟨hpath', hend'⟩ := ih hvalid hend
          (fun j hj => hsize ▸ his j (List.mem_cons_of_mem i hj)) hrest
        exact ⟨hpath.trans hpath', hend'⟩

/-- An iteration goes from its start, along calls and purged nodes, to a table
without marked nodes, where it ends. -/
theorem Valid.i2HashIterate (h : Valid cmp₀ hash t c f)
    (hlen : (chained t.size.toNat c).length < UInt32.size)
    (hrun : i2HashIterate cmp hash t ifunc data = some r) :
    ∃ s u, Step cmp hash t s ∧ Relation.ReflTransGen (Running cmp hash) s u ∧
      Step cmp hash u r.table ∧ Valid cmp₀ hash s c f ∧ s.size = t.size ∧
      ∃ c' f', Valid cmp₀ hash r.table c' f' := by
  cases hiter : t.inIterate with
  | true => simp [I2util.i2HashIterate, hiter] at hrun
  | false =>
      have hstart := h.start hiter
      rw [I2util.i2HashIterate, if_neg (by simp [hiter])] at hrun
      split at hrun
      · cases hrun
      · rename_i r₁ hvisit
        obtain ⟨u, hpurge, rfl⟩ := Option.map_eq_some_iff.mp hrun
        obtain ⟨hpath, hiter₁⟩ := visitBuckets_running hvisit rfl
        obtain ⟨c₁, f₁, hvalid₁, hsize₁, hle₁⟩ := hstart.runs hpath
        have hlen₁ : (chained r₁.table.size.toNat c₁).length < UInt32.size :=
          lt_of_le_of_lt hle₁ hlen
        have hsize : t.size = r₁.table.size := hsize₁.symm
        rw [hsize] at hpurge
        obtain ⟨hpath', hiter₂⟩ :=
          purgeBuckets_running hvalid₁ hiter₁ (fun i hi => List.mem_range.mp hi) hpurge
        obtain ⟨u', c', f', hpurge', hpurged, hclean⟩ := hvalid₁.purge_all hiter₁ hlen₁
        rw [hpurge] at hpurge'
        obtain rfl := Option.some.inj hpurge'
        have hleft : u.deleteNodes = 0 :=
          (hpurged.valid.deleteNodes_eq_zero (lt_of_le_of_lt hpurged.length hlen₁)).mpr hclean
        exact ⟨_, u, .start hiter, hpath.trans hpath', .finish hiter₂ hleft, hstart, rfl, c', f',
          hpurged.valid.finish hclean⟩

end Iteration

/-! ### Every table reached -/

section Reached

variable {cmp₀ cmp : K → K → ℤ} {hash : K → UInt32} {t t' : I2Table K V} {c : ℕ → List ℕ}
  {f : List ℕ} [Inhabited K] [Inhabited V]

theorem Valid.step (hfiner : Finer cmp₀ cmp hash) (h : Valid cmp₀ hash t c f)
    (hlen : (chained t.size.toNat c).length < UInt32.size) (hstep : Step cmp hash t t') :
    ∃ c' f', Valid cmp₀ hash t' c' f' := by
  cases hstep with
  | @call _ _ op a hrun =>
      cases op with
      | store key value mem =>
          obtain ⟨⟨rc, u⟩, hstore, hu⟩ := Option.map_eq_some_iff.mp hrun
          obtain ⟨-, rfl⟩ := Prod.mk.inj hu
          exact h.i2HashStore hfiner hstore
      | fetch key =>
          obtain ⟨v, -, hu⟩ := Option.map_eq_some_iff.mp hrun
          obtain ⟨-, rfl⟩ := Prod.mk.inj hu
          exact ⟨c, f, h⟩
      | delete key =>
          obtain ⟨⟨rc, u⟩, hdelete, hu⟩ := Option.map_eq_some_iff.mp hrun
          obtain ⟨-, rfl⟩ := Prod.mk.inj hu
          obtain ⟨c', f', hvalid, -⟩ := h.i2HashDelete hdelete
          exact ⟨c', f', hvalid⟩
      | clean =>
          obtain ⟨u, hclean, hu⟩ := Option.map_eq_some_iff.mp hrun
          obtain ⟨-, rfl⟩ := Prod.mk.inj hu
          cases hiter : t.inIterate with
          | true => simp [i2HashClean, hiter] at hclean
          | false =>
              obtain ⟨t₁, c', f', hrun', hvalid, -⟩ := h.i2HashClean_eq hiter hlen
              rw [hclean] at hrun'
              obtain rfl := Option.some.inj hrun'
              exact ⟨c', f', hvalid⟩
      | numEntries =>
          obtain ⟨-, rfl⟩ := Prod.mk.inj (Option.some.inj hrun)
          exact ⟨c, f, h⟩
      | iterate ifunc data =>
          obtain ⟨r, hiterate, hu⟩ := Option.map_eq_some_iff.mp hrun
          obtain ⟨-, rfl⟩ := Prod.mk.inj hu
          obtain ⟨s, u, -, -, -, -, -, hvalid⟩ := h.i2HashIterate hlen hiterate
          exact hvalid
  | start hiter => exact ⟨c, f, h.start hiter⟩
  | purge hiter hcursor hq hleft hdel =>
      obtain ⟨i, hi, pre, post, hc, rfl⟩ := hcursor.exists_node h.shape hq
      exact ⟨_, _, (h.of_purge hiter hi hc hdel).1⟩
  | finish hiter hleft => exact ⟨c, f, h.finish ((h.deleteNodes_eq_zero hlen).mp hleft)⟩

theorem Reached.exists_valid (hfiner : Finer cmp₀ cmp hash) (h : Reached cmp hash t) :
    ∃ c f, Valid cmp₀ hash t c f ∧ (chained t.size.toNat c).length < UInt32.size := by
  induction h with
  | init hrun =>
      obtain ⟨f, hvalid, -⟩ := @Valid.of_init _ _ cmp₀ hash _ _ _ _ _ _ _ hrun
      exact ⟨_, f, hvalid, by simp [chained, UInt32.size]⟩
  | step h hstep hfew ih =>
      obtain ⟨c, f, hvalid, hlen⟩ := ih
      obtain ⟨c', f', hvalid'⟩ := hvalid.step hfiner hlen hstep
      exact ⟨c', f', hvalid', hfew c' hvalid'.shape.bucket⟩

/-- Every node is where it belongs, at every moment. -/
theorem Reached.intact (h : Reached cmp hash t) :
    ∃ c f, Intact hash t c f ∧ (Equivalence (Same cmp) →
      (∀ x y, Same cmp x y → hash x = hash y) → OneEach cmp t c) := by
  obtain ⟨c, f, hvalid, hlen⟩ := h.exists_valid (.apart cmp hash)
  refine ⟨c, f, hvalid.cells_intact hlen, fun hcmp hhash => ?_⟩
  obtain ⟨c', f', hvalid', -⟩ := h.exists_valid (.refl hcmp hhash)
  have hsame := chained_unique hvalid.shape.bucket hvalid'.shape.bucket
  rw [OneEach, hsame]
  exact hvalid'.shape.distinct.imp fun hab _ _ => hab

/-- The tables in the middle of an iteration are among those reached. -/
theorem Reached.running (h : Reached cmp hash t)
    (hpath : Relation.ReflTransGen (Running cmp hash) t t') : Reached cmp hash t' := by
  induction hpath with
  | refl => exact h
  | tail _ hrun ih =>
      obtain ⟨c, f, hvalid, hlen⟩ := ih.exists_valid (.apart cmp hash)
      obtain ⟨c', f', hvalid', -, hle⟩ := hvalid.running hrun
      exact ih.step hrun.1 (hvalid'.few (lt_of_le_of_lt hle hlen))

/-- A run of `I2HashIterate` starts, goes along tables that are reached, and ends. -/
theorem Reached.i2HashIterate (h : Reached cmp hash t) {ifunc : I2HashIterateFunc K V σ}
    {data : σ} {r : IterRun K V σ} (hrun : i2HashIterate cmp hash t ifunc data = some r) :
    ∃ s u, Step cmp hash t s ∧ Relation.ReflTransGen (Running cmp hash) s u ∧
      Step cmp hash u r.table ∧
      ∀ v, Relation.ReflTransGen (Running cmp hash) s v → Reached cmp hash v := by
  obtain ⟨c, f, hvalid, hlen⟩ := h.exists_valid (.apart cmp hash)
  obtain ⟨s, u, hstart, hpath, hfinish, hvalid', hsize, -⟩ := hvalid.i2HashIterate hlen hrun
  have hreached := h.step hstart (hvalid'.few (by rwa [hsize]))
  exact ⟨s, u, hstart, hpath, hfinish, fun v hv => hreached.running hv⟩

theorem Reachable.few (hcmp : Equivalence (Same cmp))
    (hhash : ∀ x y, Same cmp x y → hash x = hash y) {m : List (K × V)}
    (h : Reachable cmp hash t m) (hlen : m.length < UInt32.size) : Few t := by
  obtain ⟨c, f, hvalid, hiter, hperm⟩ := h.refines hcmp hhash
  exact hvalid.few (by rwa [hvalid.chained_length hiter, hperm.length_eq])

theorem Reachable.reached (hcmp : Equivalence (Same cmp))
    (hhash : ∀ x y, Same cmp x y → hash x = hash y) {m : List (K × V)}
    (h : Reachable cmp hash t m) (hlen : m.length < UInt32.size) : Reached cmp hash t := by
  induction h with
  | init hrun => exact .init hrun
  | step h hlen' hrun ih =>
      exact (ih hlen').step (.call hrun) ((h.step hlen' hrun).few hcmp hhash hlen)

end Reached

theorem intact_iterating :
    ∃ t t' : I2Table (List UInt8) ℕ, t.inIterate = true ∧
      i2HashDelete cmpatom hashatom t [1, 2] = some (0, t') ∧
      ∃ c f, Intact hashatom t' c f ∧ OneEach cmpatom t' c := by
  obtain ⟨t, hinit⟩ := sampleTable
  have h₀ : Reachable cmpatom hashatom t [] := .init hinit
  obtain ⟨t₁, -, h₁⟩ :=
    h₀.exists_store cmpatom_equivalence hashatom_congr (by decide) [1, 2] 10
  obtain ⟨t₂, -, h₂⟩ :=
    h₁.exists_store cmpatom_equivalence hashatom_congr (by decide) [2, 1] 11
  obtain ⟨c, f, hvalid, hiter, hperm⟩ := h₂.refines cmpatom_equivalence hashatom_congr
  have hlen : (chained t₂.size.toNat c).length < UInt32.size := by
    rw [hvalid.chained_length hiter, hperm.length_eq]
    decide
  have hreached := h₂.reached cmpatom_equivalence hashatom_congr (by decide)
  have hvalid' := hvalid.start hiter
  have hstart := hreached.step (.start hiter) (hvalid'.few hlen)
  have hhas : Assoc.Has (Same cmpatom) [1, 2]
      (entries { t₂ with inIterate := true, deleteNodes := 0 } c) :=
    (Assoc.has_perm hperm).mpr ⟨_, List.mem_cons_self, by decide⟩
  obtain ⟨t', c', f', hrun, hdeleted, -, -, hsame⟩ :=
    hvalid'.i2HashDelete_eq cmpatom_equivalence hashatom_congr [1, 2]
  obtain ⟨rfl, -, hmarks⟩ := hsame rfl
  rw [if_pos hhas] at hrun
  have hcall : (Op.delete [1, 2] : Op (List UInt8) ℕ Unit).run cmpatom hashatom
      { t₂ with inIterate := true, deleteNodes := 0 } = some (.rc 0, t') := by
    rw [Op.run, hrun]
    rfl
  have hend := hstart.step (.call hcall) (hdeleted.few (hmarks.size ▸ hlen))
  obtain ⟨c, f, hintact, hone⟩ := hend.intact
  exact ⟨_, t', rfl, hrun, c, f, hintact, hone cmpatom_equivalence hashatom_congr⟩

end I2util
