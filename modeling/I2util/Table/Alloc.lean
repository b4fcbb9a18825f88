import I2util.Table.Shape

/-!
Allocation: new nodes on the free list, and a node moved from the free list to
the front of a chain.
-/

namespace I2util

variable {K V : Type}

namespace Shape

variable {cmp : K → K → ℤ} {hash : K → UInt32} {t : I2Table K V} {c : ℕ → List ℕ}
  {f : List ℕ} {n : ℕ}

theorem lt_of_mem (h : Shape cmp hash t c f n) {a : ℕ}
    (ha : a ∈ chained t.size.toNat c ++ f) : a < n :=
  List.mem_range.mp (h.perm.mem_iff.mp ha)

section

variable [Inhabited K] [Inhabited V]

theorem pushNew_deref (t : I2Table K V) (a : ℕ) :
    (pushNew t a).deref =
      Function.update (Function.update t.deref (.next a) t.freelist) .freelist (some a) := by
  have hnew : { t with nodes := Function.update t.nodes a default }.deref =
      Function.update t.deref (.next a) none := by
    ext1 m
    cases m with
    | next b =>
        rcases eq_or_ne b a with rfl | hb
        · simp [I2Table.deref, default]
        · simp [I2Table.deref, hb]
    | bucket i => simp [I2Table.deref]
    | freelist => simp [I2Table.deref]
  rw [pushNew, freeBinding_deref, hnew, Function.update_idem]
  rfl

theorem pushNew_keeps {as : List ℕ} {a : ℕ} (ha : a ∉ as) : Keeps t (pushNew t a) as := by
  have hne : ∀ b ∈ as, b ≠ a := fun b hb heq => ha (heq ▸ hb)
  have hnode : ∀ b ∈ as, ((pushNew t a).nodes b).key = (t.nodes b).key ∧
      ((pushNew t a).nodes b).value = (t.nodes b).value ∧
      ((pushNew t a).nodes b).delete = (t.nodes b).delete := by
    intro b hb
    simp [pushNew, freeBinding, hne b hb]
  exact ⟨⟨by simp [pushNew, freeBinding], by simp [pushNew, freeBinding],
    by simp [pushNew, freeBinding], fun b hb => (hnode b hb).1⟩,
    by simp [pushNew, freeBinding], by simp [pushNew, freeBinding],
    fun b hb => (hnode b hb).2.1, fun b hb => (hnode b hb).2.2⟩

theorem of_pushNew (h : Shape cmp hash t c f n) :
    Shape cmp hash (pushNew t n) c (n :: f) (n + 1) := by
  have hn : n ∉ chained t.size.toNat c ++ f := fun hmem => (h.lt_of_mem hmem).false
  have hnc : n ∉ chained t.size.toNat c := fun hmem => hn (List.mem_append_left f hmem)
  have hnf : n ∉ f := fun hmem => hn (List.mem_append_right _ hmem)
  have hderef := pushNew_deref t n
  refine h.of_keeps (pushNew_keeps hnc).toKeepsKeys
    (by simpa [pushNew, freeBinding] using h.alist_le) ?_ ?_ ?_
  · intro i hi
    refine (h.bucket i hi).frame fun m hm => ?_
    rw [hderef, Function.update_of_ne, Function.update_of_ne]
    · rintro rfl
      exact hnc (mem_chained.mpr ⟨i, hi, by simpa [Linked.links] using hm⟩)
    · rintro rfl
      simp [Linked.links] at hm
  · rw [hderef]
    exact h.free.push (by simpa [Linked.links] using hnf) (by simp)
  · rw [List.range_succ]
    exact (List.perm_middle.trans (h.perm.cons n)).trans (List.perm_append_singleton n _).symm

theorem foldl_pushNew (h : Shape cmp hash t c f n) (m : ℕ) :
    ∃ f', Shape cmp hash ((List.range m).foldl (fun t i => pushNew t (n + i)) t) c f' (n + m) ∧
      f'.length = f.length + m ∧
      Keeps t ((List.range m).foldl (fun t i => pushNew t (n + i)) t)
        (chained t.size.toNat c) ∧
      ((List.range m).foldl (fun t i => pushNew t (n + i)) t).numAlist = t.numAlist := by
  induction m with
  | zero => exact ⟨f, h, rfl, .refl t _, rfl⟩
  | succ m ih =>
      obtain ⟨f', hshape, hlen, hkeeps, halist⟩ := ih
      rw [List.range_succ, List.foldl_append, List.foldl_cons, List.foldl_nil]
      generalize (List.range m).foldl (fun t i => pushNew t (n + i)) t = t' at *
      have hn : n + m ∉ chained t.size.toNat c := by
        intro hmem
        rw [← hkeeps.size] at hmem
        exact (hshape.lt_of_mem (List.mem_append_left f' hmem)).false
      refine ⟨(n + m) :: f', hshape.of_pushNew, ?_, hkeeps.trans (pushNew_keeps hn), ?_⟩
      · rw [List.length_cons, hlen]
        omega
      · simpa [pushNew, freeBinding] using halist

/-- `alloc_freelist` fails for want of memory and changes nothing that matters, or it
adds nodes to the free list. -/
theorem of_allocFreelist (h : Shape cmp hash t c f t.capacity) (mem : Alloc) :
    (∃ t', allocFreelist t mem = (-1, t') ∧ mem ≠ ⟨true, true⟩ ∧
      Shape cmp hash t' c f t'.capacity ∧ Keeps t t' (chained t.size.toNat c)) ∨
    ∃ t' a f', allocFreelist t mem = (0, t') ∧ Shape cmp hash t' c (a :: f') t'.capacity ∧
      Keeps t t' (chained t.size.toNat c) := by
  have hhint := h.hint_pos
  have halist := h.alist_le
  cases hrealloc : mem.realloc with
  | false =>
      refine .inl ⟨t, ?_, fun hmem => by simp [hmem] at hrealloc, h, .refl t _⟩
      rw [allocFreelist, if_pos ⟨halist, hrealloc⟩]
  | true =>
      have hkeeps : ∀ num size, Keeps t { t with numAlist := num, sizeAlist := size }
          (chained t.size.toNat c) := fun num size =>
        ⟨⟨rfl, rfl, rfl, fun _ _ => rfl⟩, rfl, rfl, fun _ _ => rfl, fun _ _ => rfl⟩
      have hshape : ∀ num size, num ≤ size →
          Shape cmp hash { t with numAlist := num, sizeAlist := size } c f t.capacity :=
        fun num size hle => h.of_keeps (hkeeps num size).toKeepsKeys hle h.bucket h.free h.perm
      cases hcalloc : mem.calloc with
      | false =>
          refine .inl ⟨{ t with sizeAlist := t.sizeAlist + t.hint }, ?_,
            fun hmem => by simp [hmem] at hcalloc,
            hshape t.numAlist (t.sizeAlist + t.hint) (by omega),
            hkeeps t.numAlist (t.sizeAlist + t.hint)⟩
          simp [allocFreelist, hrealloc, hcalloc, halist]
      | true =>
          obtain ⟨f', hnew, hlen, hkeep, hnum⟩ :=
            (hshape (t.numAlist + 1) (t.sizeAlist + t.hint) (by omega)).foldl_pushNew t.hint
          have hrun : allocFreelist t mem = (0, (List.range t.hint).foldl
              (fun s i => pushNew s (t.capacity + i))
              { t with numAlist := t.numAlist + 1, sizeAlist := t.sizeAlist + t.hint }) := by
            simp [allocFreelist, hrealloc, hcalloc, halist, I2Table.capacity]
          generalize (List.range t.hint).foldl _ _ = t' at *
          have hcap : t'.capacity = t.capacity + t.hint := by
            rw [I2Table.capacity, hnum, hkeep.hint, I2Table.capacity, Nat.add_mul, Nat.one_mul]
          cases f' with
          | nil =>
              rw [List.length_nil] at hlen
              omega
          | cons a f' =>
              exact .inr ⟨t', a, f', hrun, hcap ▸ hnew, (hkeeps _ _).trans hkeep⟩

/-- `alloc_binding` fails, or it takes the first node of a free list. -/
theorem of_allocBinding (h : Shape cmp hash t c f t.capacity) (mem : Alloc) :
    (∃ t', allocBinding t mem = some (none, t') ∧ t.freelist = none ∧ mem ≠ ⟨true, true⟩ ∧
      Shape cmp hash t' c f t'.capacity ∧ Keeps t t' (chained t.size.toNat c)) ∨
    ∃ t' q f', allocBinding t mem = some (some q, takeFree t' q) ∧
      Shape cmp hash t' c (q :: f') t'.capacity ∧ Keeps t t' (chained t.size.toNat c) := by
  cases f with
  | cons q f' =>
      have hq : t.freelist = some q := h.free.1
      refine .inr ⟨t, q, f', ?_, h, .refl t _⟩
      simp [allocBinding, hq]
  | nil =>
      have hnone : t.freelist = none := h.free
      rcases h.of_allocFreelist mem with ⟨t', hrun, hmem, hshape, hkeeps⟩ |
        ⟨t', q, f', hrun, hshape, hkeeps⟩
      · refine .inl ⟨t', ?_, hnone, hmem, hshape, hkeeps⟩
        simp [allocBinding, hnone, hrun]
      · have hq : t'.freelist = some q := hshape.free.1
        refine .inr ⟨t', q, f', ?_, hshape, hkeeps⟩
        simp [allocBinding, hnone, hrun, hq]

end

/-- The cells that change when the first free node becomes the first of a
chain. -/
theorem insert_deref (t : I2Table K V) (i q : ℕ) (key : K) (value : V) :
    (insert (takeFree t q) i q key value).deref =
      Function.update (Function.update (Function.update t.deref .freelist (t.deref (.next q)))
        (.next q) (t.deref (.bucket i))) (.bucket i) (some q) := by
  ext1 m
  cases m with
  | bucket j =>
      rcases eq_or_ne j i with rfl | hj
      · simp [insert, takeFree, I2Table.assign, I2Table.deref]
      · simp [insert, takeFree, I2Table.assign, I2Table.deref, hj]
  | freelist => simp [insert, takeFree, I2Table.assign, I2Table.deref]
  | next a =>
      rcases eq_or_ne a q with rfl | ha
      · simp [insert, takeFree, I2Table.assign, I2Table.deref]
      · simp [insert, takeFree, I2Table.assign, I2Table.deref, ha]

@[simp] theorem insert_size (t : I2Table K V) (i q : ℕ) (key : K) (value : V) :
    (insert (takeFree t q) i q key value).size = t.size := by
  simp [insert, takeFree]

theorem insert_nodes_of_ne (t : I2Table K V) (i : ℕ) {q a : ℕ} (key : K) (value : V)
    (ha : a ≠ q) :
    ((insert (takeFree t q) i q key value).nodes a).key = (t.nodes a).key ∧
      ((insert (takeFree t q) i q key value).nodes a).value = (t.nodes a).value ∧
      ((insert (takeFree t q) i q key value).nodes a).delete = (t.nodes a).delete := by
  simp [insert, takeFree, ha]

@[simp] theorem insert_inIterate (t : I2Table K V) (i q : ℕ) (key : K) (value : V) :
    (insert (takeFree t q) i q key value).inIterate = t.inIterate := by
  simp [insert, takeFree]

@[simp] theorem insert_deleteNodes (t : I2Table K V) (i q : ℕ) (key : K) (value : V) :
    (insert (takeFree t q) i q key value).deleteNodes = t.deleteNodes := by
  simp [insert, takeFree]

@[simp] theorem insert_capacity (t : I2Table K V) (i q : ℕ) (key : K) (value : V) :
    (insert (takeFree t q) i q key value).capacity = t.capacity := by
  simp [insert, takeFree, I2Table.capacity]

theorem chained_cons {i : ℕ} (c : ℕ → List ℕ) (hi : i < n) (q : ℕ) :
    (chained n (Function.update c i (q :: c i))).Perm (q :: chained n c) := by
  obtain ⟨A, B, hsplit, hupdate⟩ := chained_split c hi
  rw [hupdate, hsplit]
  exact List.perm_middle

section Insert

variable {q : ℕ} (h : Shape cmp hash t c (q :: f) n)

include h

/-- A free node is in no chain. -/
theorem ne_of_mem_chained {a : ℕ} (ha : a ∈ chained t.size.toNat c) : a ≠ q := by
  have hnodup := h.nodup
  rw [List.nodup_middle, List.nodup_cons] at hnodup
  rintro rfl
  exact hnodup.1 (List.mem_append_left f ha)

theorem free_not_mem_bucket {j : ℕ} (hj : j < t.size.toNat) : q ∉ c j := fun hmem =>
  h.ne_of_mem_chained (mem_chained.mpr ⟨j, hj, hmem⟩) rfl

/-- The chains after the first free node became the first of chain `i`. -/
theorem insert_bucket {i j : ℕ} (hi : i < t.size.toNat) (hj : j < t.size.toNat) (key : K)
    (value : V) :
    Linked.IsList Link.next (insert (takeFree t q) i q key value).deref (.bucket j)
      (Function.update c i (q :: c i) j) := by
  rw [insert_deref]
  -- the cells of the chain before the node is pushed
  have hframe : Linked.IsList Link.next
      (Function.update t.deref .freelist (t.deref (.next q))) (.bucket j) (c j) := by
    refine (h.bucket j hj).frame fun m hm => Function.update_of_ne ?_ ..
    rintro rfl
    exact freelist_not_mem_links hm
  rcases eq_or_ne j i with rfl | hij
  · rw [Function.update_self]
    have hpush := hframe.push (a := q)
      (by simpa [Linked.links] using h.free_not_mem_bucket hi) (by simp)
    rwa [Function.update_of_ne (show Link.bucket _ ≠ .freelist by simp)] at hpush
  · rw [Function.update_of_ne hij]
    refine hframe.frame fun m hm => ?_
    simp only [Linked.links, List.mem_cons, List.mem_map] at hm
    rw [Function.update_of_ne, Function.update_of_ne]
    · rintro rfl
      rcases hm with hm | ⟨a, ha, hm⟩
      · cases hm
      · cases hm
        exact h.free_not_mem_bucket hj ha
    · rintro rfl
      rcases hm with hm | ⟨a, ha, hm⟩
      · cases hm
        exact hij rfl
      · cases hm

/-- The new node is at home in its chain, and the others are where they were. -/
theorem insert_home {j a : ℕ} (hj : j < t.size.toNat) (key : K) (value : V)
    (ha : a ∈ Function.update c (t.index hash key) (q :: c (t.index hash key)) j) :
    t.index hash ((insert (takeFree t q) (t.index hash key) q key value).nodes a).key = j := by
  rcases eq_or_ne a q with rfl | haq
  · have hkey : ((insert (takeFree t a) (t.index hash key) a key value).nodes a).key = key := by
      simp [insert]
    rw [hkey]
    rcases eq_or_ne j (t.index hash key) with rfl | hij
    · rfl
    · rw [Function.update_of_ne hij] at ha
      exact absurd ha (h.free_not_mem_bucket hj)
  · rw [(insert_nodes_of_ne t _ key value haq).1]
    rcases eq_or_ne j (t.index hash key) with rfl | hij
    · rw [Function.update_self] at ha
      exact h.home _ hj a (List.mem_of_ne_of_mem haq ha)
    · rw [Function.update_of_ne hij] at ha
      exact h.home j hj a ha

end Insert

/-- A new key gets the first free node and becomes the first of its chain. -/
theorem of_insert {q : ℕ} (hsymm : ∀ {x y}, Same cmp x y → Same cmp y x)
    (h : Shape cmp hash t c (q :: f) n) (key : K) (value : V)
    (hnew : ∀ a ∈ chained t.size.toNat c, ¬Same cmp key (t.nodes a).key) :
    Shape cmp hash (insert (takeFree t q) (t.index hash key) q key value)
      (Function.update c (t.index hash key) (q :: c (t.index hash key))) f n := by
  have hi := h.index_lt key
  have hchained := chained_cons c hi q
  constructor
  case size_pos => simpa using h.size_pos
  case size_max => simpa using h.size_max
  case hint_pos => simpa [insert, takeFree] using h.hint_pos
  case alist_le => simpa [insert, takeFree] using h.alist_le
  case bucket =>
    intro j hj
    rw [insert_size] at hj
    exact h.insert_bucket hi hj key value
  case free =>
    have hfree : Linked.IsList Link.next t.deref (.next q) f := h.free.2
    have hnodup := h.nodup
    rw [List.nodup_middle, List.nodup_cons] at hnodup
    rw [insert_deref]
    refine hfree.move (by simp) fun m hm => ?_
    obtain ⟨a, ha, rfl⟩ := List.mem_map.mp hm
    have haq : a ≠ q := fun heq => hnodup.1 (List.mem_append_right _ (heq ▸ ha))
    simp [haq]
  case perm =>
    rw [insert_size]
    refine List.Perm.trans ?_ h.perm
    exact (hchained.append_right f).trans List.perm_middle.symm
  case home =>
    intro j hj a ha
    rw [insert_size] at hj
    rw [I2Table.index, insert_size]
    exact h.insert_home hj key value ha
  case distinct =>
    have hold : ∀ a ∈ chained t.size.toNat c,
        ((insert (takeFree t q) (t.index hash key) q key value).nodes a).key =
          (t.nodes a).key := fun a ha =>
      (insert_nodes_of_ne t _ key value (h.ne_of_mem_chained ha)).1
    have hkey : ((insert (takeFree t q) (t.index hash key) q key value).nodes q).key = key := by
      simp [insert]
    rw [insert_size]
    refine (hchained.pairwise_iff fun hab hba => hab (hsymm hba)).mpr ?_
    refine List.pairwise_cons.mpr ⟨fun a ha => ?_, h.distinct.imp_of_mem fun ha hb hab => ?_⟩
    · rw [hkey, hold a ha]
      exact hnew a ha
    · rwa [hold _ ha, hold _ hb]
  case length_eq =>
    have hlength : (insert (takeFree t q) (t.index hash key) q key value).length =
        t.length + 1 := by
      simp [insert, takeFree]
    rw [hlength, insert_size, hchained.length_eq, List.length_cons, h.length_eq,
      UInt32.ofNat_add]
    rfl

end Shape

end I2util
