import I2util.Library.Assoc
import I2util.Table.Table
import Mathlib.Data.List.Flatten

/-!
What the links of a table look like, and how they change.

`Shape` gives each bucket chain and the free list as a list of nodes. No node is
in two places, every node allocated is in one, and the keys in the chains are
pairwise different and stand in the buckets of their hashes. The entries of the
table, as a finite map, are the pairs of the unmarked nodes.
-/

namespace I2util

variable {K V : Type}

/-- Keys that the table does not tell apart. -/
def Same (cmp : K → K → ℤ) (x y : K) : Prop := cmp x y = 0

instance (cmp : K → K → ℤ) : DecidableRel (Same cmp) := fun x y =>
  inferInstanceAs (Decidable (cmp x y = 0))

/-- The nodes of the first `n` chains, in the order in which they are visited. -/
def chained (n : ℕ) (c : ℕ → List ℕ) : List ℕ := (List.range n).flatMap c

theorem chained_update {n i : ℕ} (c : ℕ → List ℕ) (hi : i < n) :
    ∃ A B, ∀ l, chained n (Function.update c i l) = A ++ (l ++ B) := by
  induction n with
  | zero => omega
  | succ n ih =>
      rcases Nat.lt_succ_iff_lt_or_eq.mp hi with hlt | rfl
      · obtain ⟨A, B, h⟩ := ih hlt
        refine ⟨A, B ++ c n, fun l => ?_⟩
        have hn : Function.update c i l n = c n := Function.update_of_ne (show n ≠ i by omega) l c
        rw [chained, List.range_succ, List.flatMap_append, ← chained, h l]
        simp [hn]
      · refine ⟨chained i c, [], fun l => ?_⟩
        have hpre : chained i (Function.update c i l) = chained i c := by
          apply List.flatMap_congr
          intro j hj
          have hj : j < i := List.mem_range.mp hj
          exact Function.update_of_ne (show j ≠ i by omega) l c
        rw [chained, List.range_succ, List.flatMap_append, ← chained, hpre]
        simp

theorem chained_split {n i : ℕ} (c : ℕ → List ℕ) (hi : i < n) :
    ∃ A B, chained n c = A ++ (c i ++ B) ∧
      ∀ l, chained n (Function.update c i l) = A ++ (l ++ B) := by
  obtain ⟨A, B, h⟩ := chained_update c hi
  exact ⟨A, B, by rw [← h, Function.update_eq_self], h⟩

theorem mem_chained {n a : ℕ} {c : ℕ → List ℕ} : a ∈ chained n c ↔ ∃ i < n, a ∈ c i := by
  simp [chained]

/-! ### Assignments -/

namespace I2Table

variable (t : I2Table K V) (p : Link) (q : Option ℕ)

theorem deref_assign : (t.assign p q).deref = Function.update t.deref p q := by
  ext1 m
  cases p <;> cases m <;> simp [assign, deref, Function.update_apply]
  split <;> simp_all

@[simp] theorem assign_size : (t.assign p q).size = t.size := by cases p <;> rfl
@[simp] theorem assign_hint : (t.assign p q).hint = t.hint := by cases p <;> rfl
@[simp] theorem assign_length : (t.assign p q).length = t.length := by cases p <;> rfl
@[simp] theorem assign_numAlist : (t.assign p q).numAlist = t.numAlist := by cases p <;> rfl
@[simp] theorem assign_sizeAlist : (t.assign p q).sizeAlist = t.sizeAlist := by cases p <;> rfl
@[simp] theorem assign_inIterate : (t.assign p q).inIterate = t.inIterate := by cases p <;> rfl

@[simp] theorem assign_deleteNodes : (t.assign p q).deleteNodes = t.deleteNodes := by
  cases p <;> rfl

theorem assign_nodes (a : ℕ) : (t.assign p q).nodes a =
    { t.nodes a with next := (t.assign p q).deref (.next a) } := by
  cases p with
  | bucket i => rfl
  | freelist => rfl
  | next b =>
      rcases eq_or_ne a b with rfl | hab
      · simp [assign, deref]
      · simp [assign, deref, Function.update_of_ne hab]

@[simp] theorem assign_key (a : ℕ) : ((t.assign p q).nodes a).key = (t.nodes a).key := by
  rw [assign_nodes]

@[simp] theorem assign_value (a : ℕ) : ((t.assign p q).nodes a).value = (t.nodes a).value := by
  rw [assign_nodes]

@[simp] theorem assign_delete (a : ℕ) : ((t.assign p q).nodes a).delete = (t.nodes a).delete := by
  rw [assign_nodes]

end I2Table

theorem freeBinding_deref (t : I2Table K V) (q : ℕ) :
    (freeBinding t q).deref =
      Function.update (Function.update t.deref (.next q) (t.deref .freelist)) .freelist
        (some q) := by
  rw [freeBinding, I2Table.deref_assign, I2Table.deref_assign]
  rfl

/-! ### The shape of a table -/

section Shape

variable (cmp : K → K → ℤ) (hash : K → UInt32)

/-- `c` are the bucket chains, `f` is the free list, and `n` nodes are allocated. -/
structure Shape (t : I2Table K V) (c : ℕ → List ℕ) (f : List ℕ) (n : ℕ) : Prop where
  size_pos : 0 < t.size.toNat
  size_max : t.size ≠ 0xFFFFFFFF
  hint_pos : 0 < t.hint
  alist_le : t.numAlist ≤ t.sizeAlist
  bucket : ∀ i < t.size.toNat, Linked.IsList .next t.deref (.bucket i) (c i)
  free : Linked.IsList .next t.deref .freelist f
  perm : (chained t.size.toNat c ++ f).Perm (List.range n)
  home : ∀ i < t.size.toNat, ∀ a ∈ c i, t.index hash (t.nodes a).key = i
  distinct : (chained t.size.toNat c).Pairwise fun a b =>
    ¬Same cmp (t.nodes a).key (t.nodes b).key
  length_eq : t.length = UInt32.ofNat (chained t.size.toNat c).length

/-- The pairs of some nodes, marked ones left out. -/
def pairs (t : I2Table K V) (as : List ℕ) : List (K × V) :=
  (as.filter fun a => !(t.nodes a).delete).map fun a => ((t.nodes a).key, (t.nodes a).value)

/-- The finite map that a table stands for. -/
def entries (t : I2Table K V) (c : ℕ → List ℕ) : List (K × V) :=
  pairs t (chained t.size.toNat c)

end Shape

/-- The fields that the shape depends on besides the links, and the keys of the
nodes `as`, are the same. -/
structure KeepsKeys (t t' : I2Table K V) (as : List ℕ) : Prop where
  size : t'.size = t.size
  hint : t'.hint = t.hint
  length : t'.length = t.length
  key : ∀ a ∈ as, (t'.nodes a).key = (t.nodes a).key

/-- All that says what is stored in the nodes `as` is the same. -/
structure Keeps (t t' : I2Table K V) (as : List ℕ) : Prop extends KeepsKeys t t' as where
  inIterate : t'.inIterate = t.inIterate
  deleteNodes : t'.deleteNodes = t.deleteNodes
  value : ∀ a ∈ as, (t'.nodes a).value = (t.nodes a).value
  delete : ∀ a ∈ as, (t'.nodes a).delete = (t.nodes a).delete

theorem Keeps.refl (t : I2Table K V) (as : List ℕ) : Keeps t t as :=
  ⟨⟨rfl, rfl, rfl, fun _ _ => rfl⟩, rfl, rfl, fun _ _ => rfl, fun _ _ => rfl⟩

theorem Keeps.trans {t t' t'' : I2Table K V} {as : List ℕ} (h : Keeps t t' as)
    (h' : Keeps t' t'' as) : Keeps t t'' as where
  size := h'.size.trans h.size
  hint := h'.hint.trans h.hint
  length := h'.length.trans h.length
  inIterate := h'.inIterate.trans h.inIterate
  deleteNodes := h'.deleteNodes.trans h.deleteNodes
  key := fun a ha => (h'.key a ha).trans (h.key a ha)
  value := fun a ha => (h'.value a ha).trans (h.value a ha)
  delete := fun a ha => (h'.delete a ha).trans (h.delete a ha)

theorem Keeps.pairs {t t' : I2Table K V} {as : List ℕ} (h : Keeps t t' as) :
    pairs t' as = pairs t as := by
  have hfilter : (as.filter fun a => !(t'.nodes a).delete) =
      as.filter fun a => !(t.nodes a).delete :=
    List.filter_congr fun a ha => by rw [h.delete a ha]
  rw [I2util.pairs, I2util.pairs, hfilter]
  apply List.map_congr_left
  intro a ha
  have ha := List.mem_of_mem_filter ha
  rw [h.key a ha, h.value a ha]

namespace Shape

variable {cmp : K → K → ℤ} {hash : K → UInt32} {t : I2Table K V} {c : ℕ → List ℕ}
  {f : List ℕ} {n i : ℕ}

theorem nodup (h : Shape cmp hash t c f n) : (chained t.size.toNat c ++ f).Nodup :=
  h.perm.nodup_iff.mpr List.nodup_range

theorem bucket_nodup (h : Shape cmp hash t c f n) (hi : i < t.size.toNat) : (c i).Nodup := by
  obtain ⟨A, B, hc, -⟩ := chained_split c hi
  have hnodup := (List.nodup_append.mp h.nodup).1
  rw [hc] at hnodup
  exact (List.nodup_append.mp (List.nodup_append.mp hnodup).2.1).1

theorem bucket_length_lt (h : Shape cmp hash t c f n) (hi : i < t.size.toNat) :
    (c i).length < n + 1 := by
  obtain ⟨A, B, hc, -⟩ := chained_split c hi
  have hlen := h.perm.length_eq
  rw [hc] at hlen
  simp only [List.length_append, List.length_range] at hlen
  omega

/-- A chained node is in no other chain. -/
theorem not_mem_other (h : Shape cmp hash t c f n) {j a : ℕ} (hi : i < t.size.toNat)
    (hj : j < t.size.toNat) (hij : j ≠ i) (ha : a ∈ c i) : a ∉ c j := by
  intro haj
  exact hij ((h.home j hj a haj).symm.trans (h.home i hi a ha))

theorem not_mem_free (h : Shape cmp hash t c f n) {a : ℕ} (hi : i < t.size.toNat)
    (ha : a ∈ c i) : a ∉ f := by
  intro haf
  exact (List.nodup_append.mp h.nodup).2.2 a (mem_chained.mpr ⟨i, hi, ha⟩) a haf rfl

theorem freelist_not_mem_links {as : List ℕ} :
    Link.freelist ∉ Linked.links Link.next (.bucket i) as := by
  simp [Linked.links]

/-- The chains use different links. -/
theorem not_mem_links_other (h : Shape cmp hash t c f n) {j : ℕ} {m : Link}
    (hi : i < t.size.toNat) (hj : j < t.size.toNat) (hij : j ≠ i)
    (hm : m ∈ Linked.links Link.next (.bucket j) (c j)) :
    m ∉ Linked.links Link.next (.bucket i) (c i) := by
  intro hm'
  cases m with
  | bucket k =>
      obtain rfl : k = j := by simpa [Linked.links] using hm
      exact hij (by simpa [Linked.links] using hm')
  | freelist => exact freelist_not_mem_links hm
  | next a =>
      have ha : a ∈ c i := by simpa [Linked.links] using hm'
      exact h.not_mem_other hi hj hij ha (by simpa [Linked.links] using hm)

theorem not_mem_links_free (h : Shape cmp hash t c f n) {m : Link} (hi : i < t.size.toNat)
    (hm : m ∈ Linked.links Link.next .freelist f) :
    m ∉ Linked.links Link.next (.bucket i) (c i) := by
  intro hm'
  cases m with
  | bucket k => simp [Linked.links] at hm
  | freelist => exact freelist_not_mem_links hm'
  | next a =>
      have ha : a ∈ c i := by simpa [Linked.links] using hm'
      exact h.not_mem_free hi ha (by simpa [Linked.links] using hm)

theorem links_nodup (h : Shape cmp hash t c f n) (hi : i < t.size.toNat) :
    (Linked.links Link.next (.bucket i) (c i)).Nodup := by
  refine List.nodup_cons.mpr ⟨by simp, ?_⟩
  exact (h.bucket_nodup hi).map fun a b hab => by simpa using hab

theorem index_lt (h : Shape cmp hash t c f n) (key : K) : t.index hash key < t.size.toNat := by
  rw [I2Table.index, UInt32.toNat_mod]
  exact Nat.mod_lt _ h.size_pos

/-- The link behind a part of a chain holds the next node. -/
theorem deref_linkAfter (h : Shape cmp hash t c f n) (hi : i < t.size.toNat) {pre post : List ℕ}
    (hc : c i = pre ++ post) : t.deref (Linked.linkAfter .next (.bucket i) pre) = post.head? := by
  have hlist := h.bucket i hi
  rw [hc] at hlist
  exact hlist.drop.head

/-- What a search loop finds. -/
theorem search_spec (h : Shape cmp hash t c f n) (hn : n = t.capacity) (hi : i < t.size.toNat)
    (test : I2Binding K V → Bool) :
    (∃ pre q post, c i = pre ++ q :: post ∧ test (t.nodes q) = true ∧
      t.search test i = some (Linked.linkAfter .next (.bucket i) pre, some q)) ∨
    (∀ a ∈ c i, test (t.nodes a) = false) ∧ ∃ p, t.search test i = some (p, none) := by
  subst hn
  have hlist := h.bucket i hi
  have hlen := h.bucket_length_lt hi
  cases hfind : (c i).find? fun a => test (t.nodes a) with
  | some q =>
      obtain ⟨hq, pre, post, hc, hpre⟩ := List.find?_eq_some_iff_append.mp hfind
      rw [hc] at hlist hlen
      refine .inl ⟨pre, q, post, hc, hq, hlist.search_found ?_ hq ?_⟩
      · intro b hb
        simpa using hpre b hb
      · rw [List.length_append] at hlen
        omega
  | none =>
      have hall : ∀ a ∈ c i, test (t.nodes a) = false := by
        intro a ha
        simpa using List.find?_eq_none.mp hfind a ha
      exact .inr ⟨hall, _, hlist.search_end hall hlen⟩

/-- Changes that keep the chains. -/
theorem of_keeps {t' : I2Table K V} {f' : List ℕ} {n' : ℕ} (h : Shape cmp hash t c f n)
    (hkeeps : KeepsKeys t t' (chained t.size.toNat c)) (halist : t'.numAlist ≤ t'.sizeAlist)
    (hbucket : ∀ i < t.size.toNat, Linked.IsList .next t'.deref (.bucket i) (c i))
    (hfree : Linked.IsList .next t'.deref .freelist f')
    (hperm : (chained t.size.toNat c ++ f').Perm (List.range n')) :
    Shape cmp hash t' c f' n' where
  size_pos := hkeeps.size ▸ h.size_pos
  size_max := hkeeps.size ▸ h.size_max
  hint_pos := hkeeps.hint ▸ h.hint_pos
  alist_le := halist
  bucket := by
    rw [hkeeps.size]
    exact hbucket
  free := hfree
  perm := by
    rw [hkeeps.size]
    exact hperm
  home := by
    intro i hi a ha
    rw [hkeeps.size] at hi
    rw [I2Table.index, hkeeps.key a (mem_chained.mpr ⟨i, hi, ha⟩), hkeeps.size]
    exact h.home i hi a ha
  distinct := by
    rw [hkeeps.size]
    refine h.distinct.imp_of_mem ?_
    intro a b ha hb hab
    rwa [hkeeps.key a ha, hkeeps.key b hb]
  length_eq := by
    rw [hkeeps.length, hkeeps.size]
    exact h.length_eq

/-- The cells that change when a node is unlinked. -/
theorem unlink_deref (t : I2Table K V) {p : Link} (hp : p ≠ .freelist) (q : ℕ) :
    (unlink t p q).deref =
      Function.update (Function.update (Function.update t.deref p (t.deref (.next q)))
        (.next q) (t.deref .freelist)) .freelist (some q) := by
  show (freeBinding (t.assign p (t.deref (.next q))) q).deref = _
  rw [freeBinding_deref, I2Table.deref_assign, Function.update_of_ne hp.symm]

@[simp] theorem unlink_size (t : I2Table K V) (p : Link) (q : ℕ) :
    (unlink t p q).size = t.size := by
  simp [unlink, freeBinding]

@[simp] theorem unlink_key (t : I2Table K V) (p : Link) (q a : ℕ) :
    ((unlink t p q).nodes a).key = (t.nodes a).key := by
  simp [unlink, freeBinding]

@[simp] theorem unlink_value (t : I2Table K V) (p : Link) (q a : ℕ) :
    ((unlink t p q).nodes a).value = (t.nodes a).value := by
  simp [unlink, freeBinding]

@[simp] theorem unlink_delete (t : I2Table K V) (p : Link) (q a : ℕ) :
    ((unlink t p q).nodes a).delete = (t.nodes a).delete := by
  simp [unlink, freeBinding]

@[simp] theorem unlink_capacity (t : I2Table K V) (p : Link) (q : ℕ) :
    (unlink t p q).capacity = t.capacity := by
  simp [unlink, freeBinding, I2Table.capacity]

@[simp] theorem unlink_inIterate (t : I2Table K V) (p : Link) (q : ℕ) :
    (unlink t p q).inIterate = t.inIterate := by
  simp [unlink, freeBinding]

@[simp] theorem unlink_deleteNodes (t : I2Table K V) (p : Link) (q : ℕ) :
    (unlink t p q).deleteNodes = t.deleteNodes := by
  simp [unlink, freeBinding]

theorem chained_unlink {pre post : List ℕ} {q : ℕ} (c : ℕ → List ℕ) (hi : i < n)
    (hc : c i = pre ++ q :: post) :
    (q :: chained n (Function.update c i (pre ++ post))).Perm (chained n c) ∧
      (chained n (Function.update c i (pre ++ post))).Sublist (chained n c) := by
  obtain ⟨A, B, hsplit, hupdate⟩ := chained_split c hi
  have hold : chained n c = (A ++ pre) ++ q :: (post ++ B) := by
    rw [hsplit, hc]
    simp
  have hnew : chained n (Function.update c i (pre ++ post)) = (A ++ pre) ++ (post ++ B) := by
    rw [hupdate]
    simp
  rw [hold, hnew]
  exact ⟨List.perm_middle.symm, (List.sublist_cons_self q (post ++ B)).append_left (A ++ pre)⟩

/-- The cell that is changed is a cell of the chain. -/
theorem linkAfter_mem_links {pre post : List ℕ} {q : ℕ} (hc : c i = pre ++ q :: post) :
    Linked.linkAfter Link.next (.bucket i) pre ∈ Linked.links Link.next (.bucket i) (c i) := by
  rw [hc]
  exact Linked.linkAfter_mem_append

/-- Off the unlinked node and the free list only the cell before the node changes. -/
theorem unlink_deref_of_ne (t : I2Table K V) {p m : Link} (hp : p ≠ .freelist) {q : ℕ}
    (hfree : m ≠ .freelist) (hnext : m ≠ .next q) :
    (unlink t p q).deref m = Function.update t.deref p (t.deref (.next q)) m := by
  rw [unlink_deref t hp, Function.update_of_ne hfree, Function.update_of_ne hnext]

theorem unlink_bucket {pre post : List ℕ} {q : ℕ} (h : Shape cmp hash t c f n)
    (hi : i < t.size.toNat) (hc : c i = pre ++ q :: post) {j : ℕ} (hj : j < t.size.toNat) :
    Linked.IsList .next (unlink t (Linked.linkAfter .next (.bucket i) pre) q).deref (.bucket j)
      (Function.update c i (pre ++ post) j) := by
  have hcell := linkAfter_mem_links hc
  have hcellfree : Linked.linkAfter Link.next (.bucket i) pre ≠ .freelist :=
    ne_of_mem_of_not_mem hcell freelist_not_mem_links
  rcases eq_or_ne j i with rfl | hij
  · have hlist := h.bucket j hi
    have hlinks := h.links_nodup hi
    have hnodup := h.bucket_nodup hi
    rw [hc] at hlist hlinks hnodup
    rw [List.nodup_middle, List.nodup_cons] at hnodup
    rw [Function.update_self]
    refine (hlist.unlink hlinks).frame fun m hm => unlink_deref_of_ne t hcellfree ?_ ?_
    · exact ne_of_mem_of_not_mem hm freelist_not_mem_links
    · refine ne_of_mem_of_not_mem hm ?_
      simpa [Linked.links] using hnodup.1
  · have hnext : Link.next q ∈ Linked.links Link.next (.bucket i) (c i) :=
      List.mem_cons_of_mem _ (List.mem_map_of_mem (by simp [hc]))
    rw [Function.update_of_ne hij]
    refine (h.bucket j hj).frame fun m hm => ?_
    -- no cell of another chain is touched
    have hother := h.not_mem_links_other hi hj hij hm
    rw [unlink_deref_of_ne t hcellfree, Function.update_of_ne]
    · exact (ne_of_mem_of_not_mem hcell hother).symm
    · exact ne_of_mem_of_not_mem hm freelist_not_mem_links
    · exact (ne_of_mem_of_not_mem hnext hother).symm

/-- The node becomes the first of the free list. -/
theorem unlink_free {pre post : List ℕ} {q : ℕ} (h : Shape cmp hash t c f n)
    (hi : i < t.size.toNat) (hc : c i = pre ++ q :: post) :
    Linked.IsList .next (unlink t (Linked.linkAfter .next (.bucket i) pre) q).deref .freelist
      (q :: f) := by
  have hcell := linkAfter_mem_links hc
  have hcellfree : Linked.linkAfter Link.next (.bucket i) pre ≠ .freelist :=
    ne_of_mem_of_not_mem hcell freelist_not_mem_links
  have hnot : q ∉ f := h.not_mem_free hi (by simp [hc])
  have hframe : Linked.IsList Link.next (Function.update t.deref
      (Linked.linkAfter .next (.bucket i) pre) (t.deref (.next q))) .freelist f := by
    refine h.free.frame fun m hm => Function.update_of_ne ?_ ..
    exact (ne_of_mem_of_not_mem hcell (h.not_mem_links_free hi hm)).symm
  have hpush := hframe.push (a := q) (by simpa [Linked.links] using hnot) (by simp)
  rw [Function.update_of_ne hcellfree.symm] at hpush
  rw [unlink_deref t hcellfree]
  exact hpush

theorem mem_of_mem_update {pre post : List ℕ} {q : ℕ} (hc : c i = pre ++ q :: post) {j a : ℕ}
    (ha : a ∈ Function.update c i (pre ++ post) j) : a ∈ c j := by
  rcases eq_or_ne j i with rfl | hij
  · rw [Function.update_self] at ha
    rw [hc]
    rcases List.mem_append.mp ha with ha | ha <;> simp [ha]
  · rwa [Function.update_of_ne hij] at ha

theorem of_unlink {pre post : List ℕ} {q : ℕ} (h : Shape cmp hash t c f n)
    (hi : i < t.size.toNat) (hc : c i = pre ++ q :: post) :
    Shape cmp hash (unlink t (Linked.linkAfter .next (.bucket i) pre) q)
      (Function.update c i (pre ++ post)) (q :: f) n := by
  obtain ⟨hperm, hsub⟩ := chained_unlink c hi hc
  constructor
  case size_pos => simpa using h.size_pos
  case size_max => simpa using h.size_max
  case hint_pos => simpa [I2util.unlink, freeBinding] using h.hint_pos
  case alist_le => simpa [I2util.unlink, freeBinding] using h.alist_le
  case bucket =>
    intro j hj
    rw [unlink_size] at hj
    exact h.unlink_bucket hi hc hj
  case free => exact h.unlink_free hi hc
  case perm =>
    rw [unlink_size]
    exact List.perm_middle.trans ((hperm.append_right f).trans h.perm)
  case home =>
    intro j hj a ha
    rw [unlink_size] at hj
    rw [I2Table.index, unlink_key, unlink_size]
    exact h.home j hj a (mem_of_mem_update hc ha)
  case distinct =>
    simp only [unlink_size, unlink_key]
    exact h.distinct.sublist hsub
  case length_eq =>
    have hlength : (I2util.unlink t (Linked.linkAfter .next (.bucket i) pre) q).length =
        t.length - 1 := by
      simp [I2util.unlink, freeBinding]
    rw [hlength, unlink_size, h.length_eq, ← hperm.length_eq, List.length_cons, UInt32.ofNat_add]
    simp

end Shape

end I2util
