import I2util.Table.Alloc
import Mathlib.Data.List.GetD

/-!
Each operation of the table as an operation of the finite map it stands for.
-/

namespace I2util

variable {K V : Type}

/-- A table between two calls, or while an iteration is running: the counter of
marked nodes is right, and only an iteration leaves nodes marked. -/
structure Valid (cmp : K → K → ℤ) (hash : K → UInt32) (t : I2Table K V) (c : ℕ → List ℕ)
    (f : List ℕ) : Prop where
  shape : Shape cmp hash t c f t.capacity
  delete_eq : t.deleteNodes =
    UInt32.ofNat ((chained t.size.toNat c).countP fun a => (t.nodes a).delete)
  idle : t.inIterate = false → ∀ a ∈ chained t.size.toNat c, (t.nodes a).delete = false

/-- What a call leaves alone while an iteration is running: it can mark nodes
only. -/
structure Marks (t t' : I2Table K V) : Prop where
  size : t'.size = t.size
  inIterate : t'.inIterate = t.inIterate
  key : ∀ a, (t'.nodes a).key = (t.nodes a).key
  value : ∀ a, (t'.nodes a).value = (t.nodes a).value
  delete : ∀ a, (t.nodes a).delete = true → (t'.nodes a).delete = true

theorem Marks.refl (t : I2Table K V) : Marks t t :=
  ⟨rfl, rfl, fun _ => rfl, fun _ => rfl, fun _ h => h⟩

theorem Marks.trans {t t' t'' : I2Table K V} (h : Marks t t') (h' : Marks t' t'') :
    Marks t t'' where
  size := h'.size.trans h.size
  inIterate := h'.inIterate.trans h.inIterate
  key := fun a => (h'.key a).trans (h.key a)
  value := fun a => (h'.value a).trans (h.value a)
  delete := fun a ha => h'.delete a (h.delete a ha)

/-! ### Pairs -/

section Pairs

variable {cmp : K → K → ℤ} {t : I2Table K V} {as : List ℕ}

theorem mem_pairs {e : K × V} :
    e ∈ pairs t as ↔ ∃ a ∈ as, (t.nodes a).delete = false ∧
      ((t.nodes a).key, (t.nodes a).value) = e := by
  simp [pairs, and_assoc]

theorem pairs_distinct
    (h : as.Pairwise fun a b => ¬Same cmp (t.nodes a).key (t.nodes b).key) :
    Assoc.Distinct (Same cmp) (pairs t as) := by
  rw [Assoc.Distinct, pairs, List.pairwise_map]
  exact h.sublist List.filter_sublist

theorem erase_pairs (key : K) :
    Assoc.erase (Same cmp) key (pairs t as) =
      pairs t (as.filter fun a => ¬Same cmp key (t.nodes a).key) := by
  rw [Assoc.erase, pairs, pairs, List.filter_map, List.filter_comm]
  rfl

theorem pairs_append (as bs : List ℕ) : pairs t (as ++ bs) = pairs t as ++ pairs t bs := by
  simp [pairs]

theorem pairs_cons_of_delete {a : ℕ} (h : (t.nodes a).delete = true) :
    pairs t (a :: as) = pairs t as := by
  simp [pairs, h]

theorem pairs_unlink (p : Link) (q : ℕ) : pairs (unlink t p q) as = pairs t as := by
  simp [pairs]

theorem length_pairs :
    (pairs t as).length + as.countP (fun a => (t.nodes a).delete) = as.length := by
  rw [pairs, List.length_map, ← List.countP_eq_length_filter, Nat.add_comm]
  have h := as.length_eq_countP_add_countP fun a => (t.nodes a).delete
  rw [h]
  congr 2
  ext1 a
  cases (t.nodes a).delete <;> rfl

end Pairs

namespace Valid

variable {cmp : K → K → ℤ} {hash : K → UInt32} {t : I2Table K V} {c : ℕ → List ℕ}
  {f : List ℕ}

theorem distinct (h : Valid cmp hash t c f) : Assoc.Distinct (Same cmp) (entries t c) :=
  pairs_distinct h.shape.distinct

theorem i2HashNumEntries_eq (h : Valid cmp hash t c f)
    (hlen : (chained t.size.toNat c).length < UInt32.size) :
    (i2HashNumEntries t).toNat = (entries t c).length := by
  have hsum := @length_pairs _ _ t (chained t.size.toNat c)
  have hdel : t.deleteNodes.toNat =
      (chained t.size.toNat c).countP fun a => (t.nodes a).delete := by
    rw [h.delete_eq]
    exact UInt32.toNat_ofNat_of_lt' (by omega)
  have hlength : t.length.toNat = (chained t.size.toNat c).length := by
    rw [h.shape.length_eq]
    exact UInt32.toNat_ofNat_of_lt' hlen
  have hle : t.deleteNodes ≤ t.length := by
    rw [UInt32.le_iff_toNat_le]
    omega
  rw [i2HashNumEntries, if_neg (UInt32.not_lt.mpr hle), UInt32.toNat_sub_of_le _ _ hle, hdel,
    hlength, entries]
  omega

section Equivalence

variable (hcmp : Equivalence (Same cmp)) (hhash : ∀ x y, Same cmp x y → hash x = hash y)

include hcmp in
/-- A key occurs in one chained node at most. -/
theorem same_iff (h : Valid cmp hash t c f) {key : K} {a q : ℕ}
    (ha : a ∈ chained t.size.toNat c) (hq : q ∈ chained t.size.toNat c)
    (hkey : Same cmp key (t.nodes q).key) : Same cmp key (t.nodes a).key ↔ a = q := by
  constructor
  · intro hka
    by_contra hne
    have hsymm : Std.Symm fun a b => ¬Same cmp (t.nodes a).key (t.nodes b).key :=
      ⟨fun x y hxy hyx => hxy (hcmp.symm hyx)⟩
    exact h.shape.distinct.forall ha hq hne (hcmp.trans (hcmp.symm hka) hkey)
  · rintro rfl
    exact hkey

include hhash

/-- The search of `I2HashFetch` and `I2HashDelete`. -/
theorem search_live (h : Valid cmp hash t c f) (key : K) :
    (∃ pre q post, c (t.index hash key) = pre ++ q :: post ∧ (t.nodes q).delete = false ∧
      Same cmp key (t.nodes q).key ∧
      t.search (fun b => !b.delete && cmp key b.key = 0) (t.index hash key) =
        some (Linked.linkAfter .next (.bucket (t.index hash key)) pre, some q)) ∨
    ¬Assoc.Has (Same cmp) key (entries t c) ∧
      ∃ p, t.search (fun b => !b.delete && cmp key b.key = 0) (t.index hash key) =
        some (p, none) := by
  have hi := h.shape.index_lt key
  rcases h.shape.search_spec rfl hi fun b => !b.delete && cmp key b.key = 0 with
    ⟨pre, q, post, hc, htest, hrun⟩ | ⟨htest, hrun⟩
  · simp only [Bool.and_eq_true, Bool.not_eq_true', decide_eq_true_eq] at htest
    exact .inl ⟨pre, q, post, hc, htest.1, htest.2, hrun⟩
  · refine .inr ⟨?_, hrun⟩
    rintro ⟨e, he, hsame⟩
    obtain ⟨a, ha, hlive, rfl⟩ := mem_pairs.mp he
    obtain ⟨j, hj, haj⟩ := mem_chained.mp ha
    have hindex : t.index hash key = j := by
      rw [← h.shape.home j hj a haj, I2Table.index, I2Table.index, hhash _ _ hsame]
    subst hindex
    have hcmp0 : cmp key (t.nodes a).key = 0 := hsame
    simpa [hlive, hcmp0] using htest a haj

include hcmp

theorem i2HashFetch_eq (h : Valid cmp hash t c f) (key : K) :
    i2HashFetch cmp hash t key = some (Assoc.get (Same cmp) key (entries t c)) := by
  rcases h.search_live hhash key with ⟨pre, q, post, hc, hlive, hsame, hrun⟩ |
    ⟨hno, p, hrun⟩
  · have hq : q ∈ chained t.size.toNat c :=
      mem_chained.mpr ⟨t.index hash key, h.shape.index_lt key, by simp [hc]⟩
    have hget := Assoc.get_of_mem hcmp h.distinct (mem_pairs.mpr ⟨q, hq, hlive, rfl⟩) hsame
    rw [i2HashFetch, hrun, hget]
  · rw [i2HashFetch, hrun, Assoc.get_eq_none.mpr hno]

end Equivalence

end Valid

/-! ### Deleting -/

theorem mark_deref (t : I2Table K V) (q : ℕ) : (mark t q).deref = t.deref := by
  ext1 m
  cases m with
  | next a => rcases eq_or_ne a q with rfl | ha <;> simp [mark, I2Table.deref, *]
  | bucket i => rfl
  | freelist => rfl

theorem mark_key (t : I2Table K V) (q a : ℕ) : ((mark t q).nodes a).key = (t.nodes a).key := by
  rcases eq_or_ne a q with rfl | ha <;> simp [mark, *]

theorem mark_value (t : I2Table K V) (q a : ℕ) :
    ((mark t q).nodes a).value = (t.nodes a).value := by
  rcases eq_or_ne a q with rfl | ha <;> simp [mark, *]

theorem mark_delete (t : I2Table K V) (q a : ℕ) :
    ((mark t q).nodes a).delete = ((t.nodes a).delete || decide (a = q)) := by
  rcases eq_or_ne a q with rfl | ha <;> simp [mark, *]

theorem marks_mark (t : I2Table K V) (q : ℕ) : Marks t (mark t q) :=
  ⟨rfl, rfl, mark_key t q, mark_value t q, fun a ha => by simp [mark_delete, ha]⟩

namespace Valid

variable {cmp : K → K → ℤ} {hash : K → UInt32} {t : I2Table K V} {c : ℕ → List ℕ}
  {f : List ℕ}

theorem chained_around (h : Valid cmp hash t c f) {i q : ℕ} {pre post : List ℕ}
    (hi : i < t.size.toNat) (hc : c i = pre ++ q :: post) :
    ∃ X Y, chained t.size.toNat c = X ++ q :: Y ∧ q ∉ X ∧ q ∉ Y ∧
      chained t.size.toNat (Function.update c i (pre ++ post)) = X ++ Y := by
  obtain ⟨A, B, hsplit, hupdate⟩ := chained_split c hi
  have hnodup := (List.nodup_append.mp h.shape.nodup).1
  have hXY : chained t.size.toNat c = (A ++ pre) ++ q :: (post ++ B) := by
    rw [hsplit, hc]
    simp
  rw [hXY, List.nodup_middle, List.nodup_cons, List.mem_append, not_or] at hnodup
  refine ⟨A ++ pre, post ++ B, hXY, hnodup.1.1, hnodup.1.2, ?_⟩
  rw [hupdate]
  simp

/-- Without the node of a key, the chained nodes hold the other keys. -/
theorem filter_key (hcmp : Equivalence (Same cmp)) (h : Valid cmp hash t c f) {key : K}
    {q : ℕ} {X Y : List ℕ} (hXY : chained t.size.toNat c = X ++ q :: Y) (hqX : q ∉ X)
    (hqY : q ∉ Y) (hkey : Same cmp key (t.nodes q).key) :
    ((chained t.size.toNat c).filter fun a => ¬Same cmp key (t.nodes a).key) = X ++ Y := by
  have hq : q ∈ chained t.size.toNat c := by simp [hXY]
  have hfilter : ((chained t.size.toNat c).filter fun a => ¬Same cmp key (t.nodes a).key) =
      (chained t.size.toNat c).filter fun a => a ≠ q := by
    refine List.filter_congr fun a ha => ?_
    simp [h.same_iff hcmp ha hq hkey]
  have hall : ∀ l : List ℕ, q ∉ l → l.filter (fun a => decide (a ≠ q)) = l := fun l hl =>
    List.filter_eq_self.mpr fun a ha => by
      have hne : a ≠ q := fun heq => hl (heq ▸ ha)
      simpa using hne
  rw [hfilter, hXY, List.filter_append, List.filter_cons_of_neg (by simp), hall X hqX, hall Y hqY]

theorem mark_delete_of_notMem {q : ℕ} {l : List ℕ} (hq : q ∉ l) :
    ∀ a ∈ l, ((mark t q).nodes a).delete = (t.nodes a).delete := by
  intro a ha
  have hne : a ≠ q := fun heq => hq (heq ▸ ha)
  simp [mark_delete, hne]

theorem mark (h : Valid cmp hash t c f) {i q : ℕ} {pre post : List ℕ} (hi : i < t.size.toNat)
    (hc : c i = pre ++ q :: post) (hlive : (t.nodes q).delete = false)
    (hiter : t.inIterate = true) : Valid cmp hash (mark t q) c f := by
  obtain ⟨X, Y, hXY, hqX, hqY, -⟩ := h.chained_around hi hc
  have hcount : ∀ l : List ℕ, q ∉ l → l.countP (fun a => ((I2util.mark t q).nodes a).delete) =
      l.countP fun a => (t.nodes a).delete := fun l hl =>
    List.countP_congr fun a ha => by rw [mark_delete_of_notMem hl a ha]
  refine ⟨?_, ?_, ?_⟩
  · refine h.shape.of_keeps ⟨rfl, rfl, rfl, fun a _ => mark_key t q a⟩ h.shape.alist_le ?_ ?_
      h.shape.perm
    · rw [mark_deref]
      exact h.shape.bucket
    · rw [mark_deref]
      exact h.shape.free
  · -- the counter and the number of marked nodes both grow by one, modulo 2^32
    show t.deleteNodes + 1 = UInt32.ofNat ((chained t.size.toNat c).countP _)
    rw [h.delete_eq, hXY, List.countP_append, List.countP_append, List.countP_cons,
      List.countP_cons, hcount X hqX, hcount Y hqY, hlive, mark_delete]
    simp [UInt32.add_assoc]
  · intro hno
    have hiter' : (I2util.mark t q).inIterate = true := hiter
    rw [hiter'] at hno
    cases hno

/-- Deleting while an iteration is running marks a node. -/
theorem of_mark (hcmp : Equivalence (Same cmp)) (h : Valid cmp hash t c f) {key : K}
    {i q : ℕ} {pre post : List ℕ} (hi : i < t.size.toNat) (hc : c i = pre ++ q :: post)
    (hlive : (t.nodes q).delete = false) (hkey : Same cmp key (t.nodes q).key)
    (hiter : t.inIterate = true) :
    Valid cmp hash (I2util.mark t q) c f ∧
      entries (I2util.mark t q) c = Assoc.erase (Same cmp) key (entries t c) := by
  obtain ⟨X, Y, hXY, hqX, hqY, -⟩ := h.chained_around hi hc
  refine ⟨h.mark hi hc hlive hiter, ?_⟩
  rw [entries, entries, erase_pairs, h.filter_key hcmp hXY hqX hqY hkey]
  show pairs (I2util.mark t q) (chained t.size.toNat c) = _
  have hpairs : ∀ l : List ℕ, q ∉ l → pairs (I2util.mark t q) l = pairs t l := by
    intro l hl
    rw [pairs, pairs, List.filter_congr fun a ha => by rw [mark_delete_of_notMem hl a ha]]
    simp only [mark_key, mark_value]
  have hmarked : ((I2util.mark t q).nodes q).delete = true := by simp [mark_delete]
  rw [hXY, pairs_append, pairs_append, pairs_cons_of_delete hmarked, hpairs X hqX, hpairs Y hqY]

theorem unlink (h : Valid cmp hash t c f) {i q : ℕ} {pre post : List ℕ} (hi : i < t.size.toNat)
    (hc : c i = pre ++ q :: post) (hiter : t.inIterate = false) :
    Valid cmp hash (unlink t (Linked.linkAfter .next (.bucket i) pre) q)
      (Function.update c i (pre ++ post)) (q :: f) := by
  obtain ⟨X, Y, hXY, -, -, hout⟩ := h.chained_around hi hc
  have hsub : X ++ Y ⊆ chained t.size.toNat c := by
    intro a ha
    rw [hXY]
    rcases List.mem_append.mp ha with ha | ha <;> simp [ha]
  have hlive : ∀ a ∈ X ++ Y, (t.nodes a).delete = false := fun a ha => h.idle hiter a (hsub ha)
  have hcount : (X ++ Y).countP (fun a => (t.nodes a).delete) = 0 :=
    List.countP_eq_zero.mpr fun a ha => by simp [hlive a ha]
  have hcount' : (chained t.size.toNat c).countP (fun a => (t.nodes a).delete) = 0 :=
    List.countP_eq_zero.mpr fun a ha => by simp [h.idle hiter a ha]
  refine ⟨?_, ?_, ?_⟩
  · rw [Shape.unlink_capacity]
    exact h.shape.of_unlink hi hc
  · simp only [Shape.unlink_deleteNodes, Shape.unlink_size, Shape.unlink_delete]
    rw [hout, h.delete_eq, hcount, hcount']
  · intro _ a ha
    rw [Shape.unlink_size, hout] at ha
    rw [Shape.unlink_delete]
    exact hlive a ha

/-- Deleting otherwise takes the node out of its chain. -/
theorem of_unlink (hcmp : Equivalence (Same cmp)) (h : Valid cmp hash t c f) {key : K}
    {i q : ℕ} {pre post : List ℕ} (hi : i < t.size.toNat) (hc : c i = pre ++ q :: post)
    (hkey : Same cmp key (t.nodes q).key) (hiter : t.inIterate = false) :
    Valid cmp hash (I2util.unlink t (Linked.linkAfter .next (.bucket i) pre) q)
        (Function.update c i (pre ++ post)) (q :: f) ∧
      entries (I2util.unlink t (Linked.linkAfter .next (.bucket i) pre) q)
        (Function.update c i (pre ++ post)) = Assoc.erase (Same cmp) key (entries t c) := by
  obtain ⟨X, Y, hXY, hqX, hqY, hout⟩ := h.chained_around hi hc
  refine ⟨h.unlink hi hc hiter, ?_⟩
  rw [entries, entries, erase_pairs, h.filter_key hcmp hXY hqX hqY hkey, Shape.unlink_size,
    hout, pairs_unlink]

/-- `I2HashDelete` erases the key, and returns 0 exactly when it was there. -/
theorem i2HashDelete_eq (hcmp : Equivalence (Same cmp))
    (hhash : ∀ x y, Same cmp x y → hash x = hash y) (h : Valid cmp hash t c f) (key : K) :
    ∃ t' c' f', i2HashDelete cmp hash t key =
        some (if Assoc.Has (Same cmp) key (entries t c) then 0 else -1, t') ∧
      Valid cmp hash t' c' f' ∧
      entries t' c' = Assoc.erase (Same cmp) key (entries t c) ∧
      t'.inIterate = t.inIterate ∧
      (t.inIterate = true → c' = c ∧ f' = f ∧ Marks t t') := by
  rcases h.search_live hhash key with ⟨pre, q, post, hc, hlive, hsame, hrun⟩ | ⟨hno, p, hrun⟩
  · have hi := h.shape.index_lt key
    have hq : q ∈ chained t.size.toNat c :=
      mem_chained.mpr ⟨t.index hash key, hi, by simp [hc]⟩
    have hhas : Assoc.Has (Same cmp) key (entries t c) :=
      ⟨_, mem_pairs.mpr ⟨q, hq, hlive, rfl⟩, hsame⟩
    cases hiter : t.inIterate with
    | true =>
        obtain ⟨hvalid, hentries⟩ := h.of_mark hcmp hi hc hlive hsame hiter
        refine ⟨I2util.mark t q, c, f, ?_, hvalid, hentries, hiter, fun _ =>
          ⟨rfl, rfl, marks_mark t q⟩⟩
        rw [i2HashDelete, hrun, if_pos hhas]
        simp [hiter]
    | false =>
        obtain ⟨hvalid, hentries⟩ := h.of_unlink hcmp hi hc hsame hiter
        refine ⟨_, _, _, ?_, hvalid, hentries, ?_, fun hno => by cases hno⟩
        · rw [i2HashDelete, hrun, if_pos hhas]
          simp [hiter]
        · rw [Shape.unlink_inIterate, hiter]
  · refine ⟨t, c, f, ?_, h, (Assoc.erase_of_not_has hno).symm, rfl, fun _ =>
      ⟨rfl, rfl, .refl t⟩⟩
    rw [i2HashDelete, hrun, if_neg hno]

/-! ### Storing -/

/-- Allocation changes nothing that is stored. -/
theorem of_keeps {t' : I2Table K V} {f' : List ℕ} (h : Valid cmp hash t c f)
    (hshape : Shape cmp hash t' c f' t'.capacity) (hkeeps : Keeps t t' (chained t.size.toNat c)) :
    Valid cmp hash t' c f' where
  shape := hshape
  delete_eq := by
    rw [hkeeps.deleteNodes, hkeeps.size, h.delete_eq]
    congr 1
    exact List.countP_congr fun a ha => by rw [hkeeps.delete a ha]
  idle := by
    intro hiter a ha
    rw [hkeeps.inIterate] at hiter
    rw [hkeeps.size] at ha
    rw [hkeeps.delete a ha]
    exact h.idle hiter a ha

theorem entries_of_keeps {t' : I2Table K V}
    (hkeeps : Keeps t t' (chained t.size.toNat c)) : entries t' c = entries t c := by
  rw [entries, entries, hkeeps.size, hkeeps.pairs]

/-- The search of `I2HashStore`, outside an iteration. -/
theorem search_stored (hhash : ∀ x y, Same cmp x y → hash x = hash y)
    (h : Valid cmp hash t c f) (key : K) :
    (∃ q ∈ chained t.size.toNat c, Same cmp key (t.nodes q).key ∧
      ∃ p, t.search (fun b => cmp key b.key = 0) (t.index hash key) = some (p, some q)) ∨
    (∀ a ∈ chained t.size.toNat c, ¬Same cmp key (t.nodes a).key) ∧
      ∃ p, t.search (fun b => cmp key b.key = 0) (t.index hash key) = some (p, none) := by
  have hi := h.shape.index_lt key
  rcases h.shape.search_spec rfl hi fun b => cmp key b.key = 0 with
    ⟨pre, q, post, hc, htest, hrun⟩ | ⟨htest, hrun⟩
  · have hq : q ∈ chained t.size.toNat c :=
      mem_chained.mpr ⟨t.index hash key, hi, by simp [hc]⟩
    have hsame : cmp key (t.nodes q).key = 0 := by simpa using htest
    exact .inl ⟨q, hq, hsame, _, hrun⟩
  · refine .inr ⟨fun a ha hsame => ?_, hrun⟩
    obtain ⟨j, hj, haj⟩ := mem_chained.mp ha
    have hindex : t.index hash key = j := by
      rw [← h.shape.home j hj a haj, I2Table.index, I2Table.index, hhash _ _ hsame]
    subst hindex
    have hcmp0 : cmp key (t.nodes a).key = 0 := hsame
    simpa [hcmp0] using htest a haj

theorem setValue_nodes (t : I2Table K V) (q : ℕ) (value : V) (a : ℕ) :
    (setValue t q value).nodes a =
      { t.nodes a with value := if a = q then value else (t.nodes a).value } := by
  rcases eq_or_ne a q with rfl | ha <;> simp [setValue, *]

theorem setValue (h : Valid cmp hash t c f) (q : ℕ) (value : V) :
    Valid cmp hash (setValue t q value) c f := by
  have hderef : (I2util.setValue t q value).deref = t.deref := by
    ext1 m
    cases m with
    | next a => simp [I2Table.deref, setValue_nodes]
    | bucket i => rfl
    | freelist => rfl
  refine ⟨?_, ?_, ?_⟩
  · refine h.shape.of_keeps ⟨rfl, rfl, rfl, fun a _ => by rw [setValue_nodes]⟩ h.shape.alist_le
      ?_ ?_ h.shape.perm
    · rw [hderef]
      exact h.shape.bucket
    · rw [hderef]
      exact h.shape.free
  · simp only [setValue_nodes]
    exact h.delete_eq
  · simp only [setValue_nodes]
    exact h.idle

theorem of_setValue (hcmp : Equivalence (Same cmp)) (h : Valid cmp hash t c f) {key : K}
    {q : ℕ} (value : V) (hq : q ∈ chained t.size.toNat c)
    (hsame : Same cmp key (t.nodes q).key) :
    Valid cmp hash (I2util.setValue t q value) c f ∧
      entries (I2util.setValue t q value) c =
        Assoc.replace (Same cmp) key value (entries t c) := by
  refine ⟨h.setValue q value, ?_⟩
  show pairs (I2util.setValue t q value) (chained t.size.toNat c) = _
  rw [entries, pairs, pairs, Assoc.replace, List.map_map]
  simp only [setValue_nodes]
  refine List.map_congr_left fun a ha => ?_
  have ha := List.mem_of_mem_filter ha
  by_cases haq : a = q
  · simp [haq, hsame]
  · have hno : ¬Same cmp key (t.nodes a).key := fun hk =>
      haq ((h.same_iff hcmp ha hq hsame).mp hk)
    simp [haq, hno]

theorem of_insert {q : ℕ} (hsymm : ∀ {x y}, Same cmp x y → Same cmp y x)
    (h : Valid cmp hash t c (q :: f))
    (hiter : t.inIterate = false) (key : K) (value : V)
    (hnew : ∀ a ∈ chained t.size.toNat c, ¬Same cmp key (t.nodes a).key) :
    Valid cmp hash (insert (takeFree t q) (t.index hash key) q key value)
        (Function.update c (t.index hash key) (q :: c (t.index hash key))) f ∧
      (entries (insert (takeFree t q) (t.index hash key) q key value)
        (Function.update c (t.index hash key) (q :: c (t.index hash key)))).Perm
        (entries t c ++ [(key, value)]) := by
  have hi := h.shape.index_lt key
  have hperm := Shape.chained_cons c hi q
  have hne : ∀ a ∈ chained t.size.toNat c, a ≠ q := fun a ha => h.shape.ne_of_mem_chained ha
  have hold := fun a ha => Shape.insert_nodes_of_ne t (t.index hash key) key value (hne a ha)
  have hq : (insert (takeFree t q) (t.index hash key) q key value).nodes q =
      ⟨key, value, false, (takeFree t q).buckets (t.index hash key)⟩ := by
    simp [insert]
  have hlive : ∀ a ∈ q :: chained t.size.toNat c,
      ((insert (takeFree t q) (t.index hash key) q key value).nodes a).delete = false := by
    intro a ha
    rcases List.mem_cons.mp ha with rfl | ha
    · rw [hq]
    · rw [(hold a ha).2.2]
      exact h.idle hiter a ha
  refine ⟨⟨?_, ?_, ?_⟩, ?_⟩
  · rw [Shape.insert_capacity]
    exact h.shape.of_insert hsymm key value hnew
  · have hcount : (chained t.size.toNat c).countP (fun a => (t.nodes a).delete) = 0 :=
      List.countP_eq_zero.mpr fun a ha => by simp [h.idle hiter a ha]
    rw [Shape.insert_deleteNodes, Shape.insert_size, hperm.countP_eq, h.delete_eq, hcount,
      List.countP_eq_zero.mpr fun a ha => by simp [hlive a ha]]
  · intro _ a ha
    rw [Shape.insert_size] at ha
    exact hlive a (hperm.mem_iff.mp ha)
  · rw [entries, Shape.insert_size]
    refine List.Perm.trans ((hperm.filter _).map _) ?_
    have hpairs : pairs (insert (takeFree t q) (t.index hash key) q key value)
        (chained t.size.toNat c) = pairs t (chained t.size.toNat c) := by
      rw [pairs, pairs, List.filter_congr fun a ha => by rw [(hold a ha).2.2]]
      refine List.map_congr_left fun a ha => ?_
      have ha := List.mem_of_mem_filter ha
      rw [(hold a ha).1, (hold a ha).2.1]
    have hcons : pairs (insert (takeFree t q) (t.index hash key) q key value)
        (q :: chained t.size.toNat c) = (key, value) :: entries t c := by
      rw [entries, ← hpairs]
      simp [pairs, hq]
    show (pairs _ (q :: chained t.size.toNat c)).Perm _
    rw [hcons]
    exact (List.perm_append_singleton _ _).symm

/-- `I2HashStore` puts the pair, or memory runs out for a new key and it stores
nothing. -/
theorem i2HashStore_eq [Inhabited K] [Inhabited V] (hcmp : Equivalence (Same cmp))
    (hhash : ∀ x y, Same cmp x y → hash x = hash y) (h : Valid cmp hash t c f)
    (hiter : t.inIterate = false) (key : K) (value : V) (mem : Alloc) :
    ∃ rc t' c' f', i2HashStore cmp hash t key value mem = some (rc, t') ∧
      Valid cmp hash t' c' f' ∧ t'.inIterate = false ∧
      (rc = 0 ∧ (entries t' c').Perm (Assoc.put (Same cmp) key value (entries t c)) ∨
        rc = -1 ∧ t.freelist = none ∧ mem ≠ ⟨true, true⟩ ∧
          ¬Assoc.Has (Same cmp) key (entries t c) ∧ entries t' c' = entries t c) := by
  have hmax := h.shape.size_max
  rcases h.search_stored hhash key with ⟨q, hq, hsame, p, hrun⟩ | ⟨hnew, p, hrun⟩
  · -- the key is there: its node gets the new value
    obtain ⟨hvalid, hentries⟩ := h.of_setValue hcmp value hq hsame
    have hhas : Assoc.Has (Same cmp) key (entries t c) :=
      ⟨_, mem_pairs.mpr ⟨q, hq, h.idle hiter q hq, rfl⟩, hsame⟩
    refine ⟨0, I2util.setValue t q value, c, f, ?_, hvalid, hiter, .inl ⟨rfl, ?_⟩⟩
    · simp [i2HashStore, hiter, hmax, hrun]
    · rw [hentries, Assoc.put, if_pos hhas]
  · have hno : ¬Assoc.Has (Same cmp) key (entries t c) := by
      rintro ⟨e, he, hsame⟩
      obtain ⟨a, ha, -, rfl⟩ := mem_pairs.mp he
      exact hnew a ha hsame
    rcases h.shape.of_allocBinding mem with ⟨t', halloc, hfree, hmem, hshape, hkeeps⟩ |
      ⟨t', q, f', halloc, hshape, hkeeps⟩
    · refine ⟨-1, t', c, f, ?_, h.of_keeps hshape hkeeps, hkeeps.inIterate.trans hiter,
        .inr ⟨rfl, hfree, hmem, hno, entries_of_keeps hkeeps⟩⟩
      simp [i2HashStore, hiter, hmax, hrun, halloc]
    · -- the first free node gets the pair
      have hvalid := h.of_keeps hshape hkeeps
      have hiter' := hkeeps.inIterate.trans hiter
      have hnew' : ∀ a ∈ chained t'.size.toNat c, ¬Same cmp key (t'.nodes a).key := by
        intro a ha
        rw [hkeeps.size] at ha
        rw [hkeeps.key a ha]
        exact hnew a ha
      obtain ⟨hvalid', hperm⟩ := hvalid.of_insert hcmp.symm hiter' key value hnew'
      have hindex : (takeFree t' q).index hash key = t'.index hash key := by
        simp [I2Table.index, takeFree]
      refine ⟨0, _, _, _, ?_, hvalid', ?_, .inl ⟨rfl, ?_⟩⟩
      · simp [i2HashStore, hiter, hmax, hrun, halloc, hindex]
      · rw [Shape.insert_inIterate, hiter']
      · rw [entries_of_keeps hkeeps] at hperm
        rwa [Assoc.put, if_neg hno]

/-! ### Cleaning -/

/-- The inner loop empties a bucket. -/
theorem cleanBucket_eq {n i : ℕ} (h : Shape cmp hash t c f t.capacity)
    (hi : i < t.size.toNat) (hn : (c i).length < n) :
    ∃ t' f', cleanBucket i n t = some t' ∧
      Shape cmp hash t' (Function.update c i []) f' t'.capacity ∧ t'.size = t.size ∧
      t'.inIterate = t.inIterate ∧ t'.deleteNodes = t.deleteNodes := by
  induction n generalizing t c f with
  | zero => omega
  | succ n ih =>
      cases hci : c i with
      | nil =>
          have hnone : t.buckets i = none := h.deref_linkAfter hi (show c i = [] ++ [] from hci)
          refine ⟨t, f, ?_, ?_, rfl, rfl, rfl⟩
          · rw [cleanBucket, hnone]
          · rwa [← hci, Function.update_eq_self]
      | cons q post =>
          have hsome : t.buckets i = some q :=
            h.deref_linkAfter hi (show c i = [] ++ q :: post from hci)
          have hstep := h.of_unlink hi (show c i = [] ++ q :: post from hci)
          rw [List.nil_append, ← Shape.unlink_capacity t (.bucket i) q] at hstep
          have hlen : (Function.update c i post i).length < n := by
            rw [Function.update_self]
            rw [hci, List.length_cons] at hn
            omega
          obtain ⟨t', f', hrun, hshape, hsize, hiter, hdel⟩ := ih hstep
            (by rwa [Linked.linkAfter, Shape.unlink_size]) hlen
          rw [Function.update_idem] at hshape
          refine ⟨t', f', ?_, hshape, ?_, ?_, ?_⟩
          · rw [cleanBucket, hsome]
            exact hrun
          · rw [hsize, Shape.unlink_size]
          · rw [hiter, Shape.unlink_inIterate]
          · rw [hdel, Shape.unlink_deleteNodes]

/-- The outer loop stops early only when every bucket is empty. -/
theorem cleanBuckets_eq {is : List ℕ} (h : Shape cmp hash t c f t.capacity)
    (hlen : (chained t.size.toNat c).length < UInt32.size) (his : ∀ i ∈ is, i < t.size.toNat) :
    ∃ t' c' f', cleanBuckets is t = some t' ∧ Shape cmp hash t' c' f' t'.capacity ∧
      t'.size = t.size ∧ t'.inIterate = t.inIterate ∧ t'.deleteNodes = t.deleteNodes ∧
      ∀ i < t.size.toNat, c' i = [] ∨ c' i = c i ∧ i ∉ is := by
  induction is generalizing t c f with
  | nil => exact ⟨t, c, f, rfl, h, rfl, rfl, rfl, fun i _ => .inr ⟨rfl, List.not_mem_nil⟩⟩
  | cons i is ih =>
      rw [cleanBuckets]
      by_cases h0 : t.length = 0
      · rw [if_pos h0]
        -- the counter has not wrapped around, so 0 means that nothing is chained
        have hempty : chained t.size.toNat c = [] := by
          rw [h.length_eq] at h0
          have hnat := congrArg UInt32.toNat h0
          rw [UInt32.toNat_ofNat_of_lt' hlen] at hnat
          exact List.length_eq_zero_iff.mp hnat
        refine ⟨t, c, f, rfl, h, rfl, rfl, rfl, fun j hj => .inl ?_⟩
        exact List.flatMap_eq_nil_iff.mp hempty j (List.mem_range.mpr hj)
      · rw [if_neg h0]
        have hi := his i List.mem_cons_self
        obtain ⟨t₁, f₁, hrun, hshape, hsize, hiter, hdel⟩ :=
          cleanBucket_eq h hi (h.bucket_length_lt hi)
        have hlen₁ : (chained t₁.size.toNat (Function.update c i [])).length < UInt32.size := by
          obtain ⟨A, B, hsplit, hupdate⟩ := chained_split c hi
          rw [hsplit] at hlen
          rw [hsize, hupdate]
          simp only [List.length_append, List.length_nil] at hlen ⊢
          omega
        obtain ⟨t', c', f', hrun', hshape', hsize', hiter', hdel', hc'⟩ := ih hshape hlen₁
          fun j hj => hsize ▸ his j (List.mem_cons_of_mem i hj)
        refine ⟨t', c', f', ?_, hshape', hsize'.trans hsize, hiter'.trans hiter,
          hdel'.trans hdel, fun j hj => ?_⟩
        · rw [hrun, Option.bind_some, hrun']
        · rcases hc' j (hsize ▸ hj) with hnil | ⟨heq, hnot⟩
          · exact .inl hnil
          · rcases eq_or_ne j i with rfl | hji
            · exact .inl (by rw [heq, Function.update_self])
            · rw [Function.update_of_ne hji] at heq
              exact .inr ⟨heq, by simp [hji, hnot]⟩

/-- `I2HashClean` removes everything, and its assertion holds. -/
theorem i2HashClean_eq (h : Valid cmp hash t c f) (hiter : t.inIterate = false)
    (hlen : (chained t.size.toNat c).length < UInt32.size) :
    ∃ t' c' f', i2HashClean t = some t' ∧ Valid cmp hash t' c' f' ∧ t'.inIterate = false ∧
      entries t' c' = [] := by
  obtain ⟨t', c', f', hrun, hshape, hsize, hiter', hdel, hc'⟩ :=
    cleanBuckets_eq h.shape hlen fun i hi => List.mem_range.mp hi
  have hempty : chained t'.size.toNat c' = [] := by
    apply List.flatMap_eq_nil_iff.mpr
    intro i hi
    rw [hsize] at hi
    rcases hc' i (List.mem_range.mp hi) with hnil | ⟨-, hnot⟩
    · exact hnil
    · exact absurd hi hnot
  have hcount : (chained t.size.toNat c).countP (fun a => (t.nodes a).delete) = 0 :=
    List.countP_eq_zero.mpr fun a ha => by simp [h.idle hiter a ha]
  have hlength : t'.length = 0 := by
    rw [hshape.length_eq, hempty]
    rfl
  refine ⟨t', c', f', ?_, ⟨hshape, ?_, ?_⟩, hiter'.trans hiter, ?_⟩
  · simp [i2HashClean, hiter, hrun, hlength]
  · rw [hdel, h.delete_eq, hcount, hempty]
    rfl
  · intro _ a ha
    rw [hempty] at ha
    cases ha
  · rw [entries, hempty]
    rfl

end Valid

/-! ### The new table -/

theorem primeFor_mem (hint : ℕ) {i : ℕ} (hi : i < primes.length) :
    primeFor hint i ∈ primes := by
  induction i with
  | zero => exact List.mem_cons_self
  | succ i ih =>
      rw [primeFor]
      split
      · exact ih (by omega)
      · rw [List.getD_eq_getElem _ _ hi]
        exact List.getElem_mem hi

theorem primes_size : ∀ p ∈ primes, 0 < p.toUInt32.toNat ∧ p.toUInt32 ≠ 0xFFFFFFFF ∧ 0 < p := by
  decide

theorem shape_empty {cmp : K → K → ℤ} {hash : K → UInt32} {t : I2Table K V}
    (hsize : 0 < t.size.toNat ∧ t.size ≠ 0xFFFFFFFF) (hhint : 0 < t.hint)
    (hlength : t.length = 0) (hderef : ∀ i, t.deref (.bucket i) = none)
    (hfree : t.deref .freelist = none) (halist : t.numAlist = 0) :
    Shape cmp hash t (fun _ => []) [] t.capacity := by
  have hchained : chained t.size.toNat (fun _ => []) = [] := by simp [chained]
  have hcap : t.capacity = 0 := by rw [I2Table.capacity, halist, Nat.zero_mul]
  refine ⟨hsize.1, hsize.2, hhint, by omega, fun i _ => hderef i, hfree, ?_, ?_, ?_, ?_⟩
  · rw [hchained, hcap]
    exact List.Perm.refl _
  · intro i _ a ha
    cases ha
  · rw [hchained]
    exact List.Pairwise.nil
  · rw [hchained, hlength]
    rfl

theorem Valid.of_init {cmp : K → K → ℤ} {hash : K → UInt32} [Inhabited K] [Inhabited V]
    {hint : UInt32} {table buckets : Bool} {mem : Alloc} {t : I2Table K V}
    (h : i2HashInit hint table buckets mem = some t) :
    ∃ f, Valid cmp hash t (fun _ => []) f ∧ t.inIterate = false := by
  have hprime := primes_size _
    (primeFor_mem hint.toNat (show primes.length - 1 < primes.length by decide))
  rw [i2HashInit] at h
  split at h
  · cases h
  · have hhint : 0 < if hint.toNat ≠ 0 then hint.toNat else
        primeFor hint.toNat (primes.length - 1) := by
      split
      · omega
      · exact hprime.2.2
    have hshape := @shape_empty K V cmp hash
      ⟨(primeFor hint.toNat (primes.length - 1)).toUInt32,
        if hint.toNat ≠ 0 then hint.toNat else primeFor hint.toNat (primes.length - 1), 0,
        fun _ => none, none, fun _ => default, 0, 0, false, 0⟩ ⟨hprime.1, hprime.2.1⟩ hhint rfl
        (fun _ => rfl) rfl rfl
    rcases hshape.of_allocFreelist mem with ⟨t', hrun, -, -, -⟩ | ⟨t', a, f', hrun, hnew, hkeeps⟩
    · simp only [hrun] at h
      cases h
    · simp only [hrun] at h
      obtain rfl := Option.some.inj h
      have hchained : chained t'.size.toNat (fun _ => []) = [] := by simp [chained]
      refine ⟨a :: f', ⟨hnew, ?_, ?_⟩, hkeeps.inIterate⟩
      · rw [hchained, hkeeps.deleteNodes]
        rfl
      · intro _ b hb
        rw [hchained] at hb
        cases hb

theorem entries_nil (t : I2Table K V) : entries t (fun _ => []) = [] := by
  simp [entries, pairs, chained]

end I2util
