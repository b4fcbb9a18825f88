import I2util.Table.MapIterate
import I2util.Table.Operations

/-!
`I2HashIterate` is the iteration over the map that the table stands for.

The first loop runs over the chains while the function marks nodes in them: the
chains stay as they are, so the loop meets every node once. The second loop
takes the marked nodes out, and its counter says how many are left.
-/

namespace I2util

variable {K V σ : Type}

def stored (t : I2Table K V) (a : ℕ) : K × V := ((t.nodes a).key, (t.nodes a).value)

theorem Marks.stored {t t' : I2Table K V} (h : Marks t t') : stored t' = stored t := by
  ext1 a
  rw [I2util.stored, I2util.stored, h.key, h.value]

/-- A part of an iteration over the table does what a part of an iteration over
the map does. -/
structure Simulates (cmp : K → K → ℤ) (hash : K → UInt32) (t : I2Table K V) (c : ℕ → List ℕ)
    (f : List ℕ) (r : IterRun K V σ) (s : MapRun K V σ) : Prop where
  go : r.go = s.go
  data : r.data = s.data
  events : r.events = s.events
  map : entries r.table c = s.map
  valid : Valid cmp hash r.table c f
  marks : Marks t r.table

section Visiting

variable {cmp : K → K → ℤ} {hash : K → UInt32} {t : I2Table K V} {c : ℕ → List ℕ}
  {f : List ℕ} {ifunc : I2HashIterateFunc K V σ}

theorem Simulates.andThen {r r' : IterRun K V σ} {s : MapRun K V σ}
    {k : List (K × V) → σ → MapRun K V σ} (h : Simulates cmp hash t c f r s) (hgo : r.go = true)
    (h' : Simulates cmp hash r.table c f r' (k s.map s.data)) :
    Simulates cmp hash t c f (r'.after r.events) (s.andThen k) := by
  rw [MapRun.andThen, if_pos (h.go ▸ hgo)]
  refine ⟨h'.go, h'.data, ?_, h'.map, h'.valid, h.marks.trans h'.marks⟩
  show r.events ++ r'.events = s.events ++ (k s.map s.data).events
  rw [h.events, h'.events]

theorem Simulates.andThen_stop {r : IterRun K V σ} {s : MapRun K V σ}
    {k : List (K × V) → σ → MapRun K V σ} (h : Simulates cmp hash t c f r s) (hgo : r.go = false) :
    Simulates cmp hash t c f r (s.andThen k) := by
  have hs : s.go = false := h.go ▸ hgo
  rwa [MapRun.andThen, if_neg (by simp [hs])]

variable (hcmp : Equivalence (Same cmp)) (hhash : ∀ x y, Same cmp x y → hash x = hash y)

include hcmp

/-- The key of a chained node occurs in the map exactly when the node is not
marked. -/
theorem Valid.has_key_iff (h : Valid cmp hash t c f) {a : ℕ} (ha : a ∈ chained t.size.toNat c) :
    Assoc.Has (Same cmp) (t.nodes a).key (entries t c) ↔ (t.nodes a).delete = false := by
  constructor
  · rintro ⟨e, he, hsame⟩
    obtain ⟨b, hb, hlive, rfl⟩ := mem_pairs.mp he
    have hba := (h.same_iff hcmp hb ha (hcmp.refl _)).mp hsame
    exact hba ▸ hlive
  · intro hlive
    exact ⟨stored t a, mem_pairs.mpr ⟨a, ha, hlive, rfl⟩, hcmp.refl _⟩

include hhash

theorem TableProg.run_eq {α : Type} (prog : TableProg K V α) (h : Valid cmp hash t c f)
    (hiter : t.inIterate = true) (hlen : (chained t.size.toNat c).length < UInt32.size) :
    ∃ t', prog.run cmp hash t = some ((prog.eval cmp (entries t c)).1, t',
        (prog.eval cmp (entries t c)).2.2) ∧
      entries t' c = (prog.eval cmp (entries t c)).2.1 ∧ Valid cmp hash t' c f ∧ Marks t t' := by
  induction prog generalizing t with
  | ret a => exact ⟨t, rfl, rfl, h, .refl t⟩
  | numEntries k ih =>
      have hnum : i2HashNumEntries t = UInt32.ofNat (entries t c).length := by
        rw [← h.i2HashNumEntries_eq hlen, UInt32.ofNat_toNat]
      obtain ⟨t', hrun, hmap, hvalid, hmarks⟩ := ih (i2HashNumEntries t) h hiter hlen
      rw [hnum] at hrun hmap
      exact ⟨t', by rw [run, hnum, hrun]; rfl, hmap, hvalid, hmarks⟩
  | fetch key k ih =>
      have hfetch := h.i2HashFetch_eq hcmp hhash key
      obtain ⟨t', hrun, hmap, hvalid, hmarks⟩ :=
        ih (Assoc.get (Same cmp) key (entries t c)) h hiter hlen
      exact ⟨t', by rw [run, hfetch]; simp only [hrun]; rfl, hmap, hvalid, hmarks⟩
  | delete key k ih =>
      obtain ⟨t₁, c₁, f₁, hdelete, hvalid₁, herase, hiter₁, hsame⟩ :=
        h.i2HashDelete_eq hcmp hhash key
      obtain ⟨rfl, rfl, hmarks₁⟩ := hsame hiter
      obtain ⟨t', hrun, hmap, hvalid, hmarks⟩ :=
        ih (if Assoc.Has (Same cmp) key (entries t c₁) then 0 else -1) hvalid₁
          (hiter₁.trans hiter) (by rwa [hmarks₁.size])
      rw [herase] at hrun hmap
      exact ⟨t', by rw [run, hdelete]; simp only [hrun]; rfl, hmap, hvalid, hmarks₁.trans hmarks⟩

theorem visitNode_eq (h : Valid cmp hash t c f) (hiter : t.inIterate = true)
    (hlen : (chained t.size.toNat c).length < UInt32.size) (q : ℕ) (data : σ) :
    ∃ r, visitNode cmp hash ifunc t q data = some r ∧
      Simulates cmp hash t c f r (visitEntry cmp ifunc (stored t q) (entries t c) data) := by
  obtain ⟨t', hrun, hmap, hvalid, hmarks⟩ :=
    TableProg.run_eq hcmp hhash (ifunc (t.nodes q).key (t.nodes q).value data) h hiter hlen
  refine ⟨⟨_, t', _, _⟩, ?_, rfl, rfl, rfl, hmap, hvalid, hmarks⟩
  rw [visitNode]
  simp only [hrun]
  rfl

theorem visitChain_eq {n i : ℕ} {pre post : List ℕ} (h : Valid cmp hash t c f)
    (hiter : t.inIterate = true) (hlen : (chained t.size.toNat c).length < UInt32.size)
    (hi : i < t.size.toNat) (hc : c i = pre ++ post) (hn : post.length < n) (data : σ) :
    ∃ r, visitChain cmp hash ifunc n (t.deref (Linked.linkAfter .next (.bucket i) pre)) t data =
        some r ∧
      Simulates cmp hash t c f r
        (visitEntries cmp ifunc (post.map (stored t)) (entries t c) data) := by
  induction post generalizing n t pre data with
  | nil =>
      have hnone : t.deref (Linked.linkAfter .next (.bucket i) pre) = none :=
        h.shape.deref_linkAfter hi hc
      cases n with
      | zero => exact absurd hn (Nat.not_lt_zero _)
      | succ n =>
          refine ⟨⟨true, t, data, []⟩, ?_, rfl, rfl, rfl, rfl, h, .refl t⟩
          rw [hnone]
          rfl
  | cons q post ih =>
      have hq : q ∈ chained t.size.toNat c := mem_chained.mpr ⟨i, hi, by simp [hc]⟩
      have hsome : t.deref (Linked.linkAfter .next (.bucket i) pre) = some q :=
        h.shape.deref_linkAfter hi hc
      have hc' : c i = (pre ++ [q]) ++ post := by simp [hc]
      have hlink : Linked.linkAfter Link.next (.bucket i) (pre ++ [q]) = .next q :=
        Linked.linkAfter_append
      cases n with
      | zero => exact absurd hn (Nat.not_lt_zero _)
      | succ n =>
          have hn' : post.length < n := Nat.lt_of_succ_lt_succ hn
          rw [hsome, visitChain, List.map_cons, visitEntries]
          cases hdel : (t.nodes q).delete with
          | true =>
              -- a marked node is passed over, and its key is not in the map
              have hno : ¬Assoc.Has (Same cmp) (stored t q).1 (entries t c) := by
                intro hhas
                have hlive := (h.has_key_iff hcmp hq).mp hhas
                rw [hdel] at hlive
                cases hlive
              obtain ⟨r, hrun, hsim⟩ := ih h hiter hlen hi hc' hn' data
              rw [hlink] at hrun
              rw [if_pos rfl, if_neg hno]
              exact ⟨r, hrun, hsim⟩
          | false =>
              have hhas : Assoc.Has (Same cmp) (stored t q).1 (entries t c) :=
                (h.has_key_iff hcmp hq).mpr hdel
              obtain ⟨r, hnode, hsim⟩ := @visitNode_eq _ _ σ cmp hash t c f ifunc hcmp hhash h
                hiter hlen q data
              rw [if_neg (by simp), if_pos hhas, hnode]
              dsimp only
              cases hgo : r.go with
              | false => exact ⟨r, if_neg (by simp), hsim.andThen_stop hgo⟩
              | true =>
                  have hsize := hsim.marks.size
                  -- the chains are the same, so the next node is the one behind `q`
                  obtain ⟨r', hrun, hsim'⟩ := ih hsim.valid (hsim.marks.inIterate.trans hiter)
                    (by rwa [hsize]) (by rwa [hsize]) hc' hn' r.data
                  rw [hlink] at hrun
                  rw [hsim.marks.stored, hsim.map, hsim.data] at hsim'
                  refine ⟨r'.after r.events, ?_, hsim.andThen hgo hsim'⟩
                  rw [if_pos rfl]
                  exact congrArg (Option.map (IterRun.after r.events)) hrun

theorem visitBuckets_eq {is : List ℕ} (h : Valid cmp hash t c f) (hiter : t.inIterate = true)
    (hlen : (chained t.size.toNat c).length < UInt32.size) (his : ∀ i ∈ is, i < t.size.toNat)
    (data : σ) :
    ∃ r, visitBuckets cmp hash ifunc is t data = some r ∧
      Simulates cmp hash t c f r
        (visitEntries cmp ifunc ((is.flatMap c).map (stored t)) (entries t c) data) := by
  induction is generalizing t data with
  | nil => exact ⟨⟨true, t, data, []⟩, rfl, rfl, rfl, rfl, rfl, h, .refl t⟩
  | cons i is ih =>
      have hi := his i List.mem_cons_self
      obtain ⟨r, hchain, hsim⟩ := @visitChain_eq _ _ σ cmp hash t c f ifunc hcmp hhash
        (t.capacity + 1) i [] (c i) h hiter hlen hi rfl (h.shape.bucket_length_lt hi) data
      rw [visitBuckets, List.flatMap_cons, List.map_append, visitEntries_append]
      change visitChain cmp hash ifunc (t.capacity + 1) (t.buckets i) t data = some r at hchain
      rw [hchain]
      dsimp only
      cases hgo : r.go with
      | false => exact ⟨r, if_neg (by simp), hsim.andThen_stop hgo⟩
      | true =>
          have hsize := hsim.marks.size
          obtain ⟨r', hrun, hsim'⟩ := ih hsim.valid (hsim.marks.inIterate.trans hiter)
            (by rwa [hsize]) (fun j hj => hsize ▸ his j (List.mem_cons_of_mem i hj)) r.data
          rw [hsim.marks.stored, hsim.map, hsim.data] at hsim'
          refine ⟨r'.after r.events, ?_, hsim.andThen hgo hsim'⟩
          rw [if_pos rfl, hrun]
          rfl

end Visiting

/-! ### Taking out the marked nodes -/

section Purge

variable (t : I2Table K V) (p : Link) (q a : ℕ)

@[simp] theorem purge_size : (purge t p q).size = t.size := Shape.unlink_size t p q
@[simp] theorem purge_capacity : (purge t p q).capacity = t.capacity :=
  Shape.unlink_capacity t p q
@[simp] theorem purge_inIterate : (purge t p q).inIterate = t.inIterate :=
  Shape.unlink_inIterate t p q
@[simp] theorem purge_delete : ((purge t p q).nodes a).delete = (t.nodes a).delete :=
  Shape.unlink_delete t p q a

theorem pairs_purge (as : List ℕ) : pairs (purge t p q) as = pairs t as :=
  pairs_unlink p q

end Purge

namespace Valid

variable {cmp : K → K → ℤ} {hash : K → UInt32} {t : I2Table K V} {c : ℕ → List ℕ}
  {f : List ℕ}

/-- The counter is 0 only when no node is marked. -/
theorem deleteNodes_eq_zero (h : Valid cmp hash t c f)
    (hlen : (chained t.size.toNat c).length < UInt32.size) :
    t.deleteNodes = 0 ↔ ∀ a ∈ chained t.size.toNat c, (t.nodes a).delete = false := by
  have hle := @List.countP_le_length _ (fun a => (t.nodes a).delete) (chained t.size.toNat c)
  rw [h.delete_eq, ← UInt32.toNat_inj, UInt32.toNat_ofNat_of_lt' (by omega)]
  show List.countP _ _ = 0 ↔ _
  simp [List.countP_eq_zero]

/-- A marked node is taken out of its chain, and the counter goes down. -/
theorem of_purge {i q : ℕ} {pre post : List ℕ} (h : Valid cmp hash t c f)
    (hiter : t.inIterate = true) (hi : i < t.size.toNat) (hc : c i = pre ++ q :: post)
    (hdel : (t.nodes q).delete = true) :
    Valid cmp hash (purge t (Linked.linkAfter .next (.bucket i) pre) q)
        (Function.update c i (pre ++ post)) (q :: f) ∧
      entries (purge t (Linked.linkAfter .next (.bucket i) pre) q)
        (Function.update c i (pre ++ post)) = entries t c := by
  obtain ⟨X, Y, hXY, -, -, hout⟩ := h.chained_around hi hc
  have hshape := h.shape.of_unlink hi hc
  generalize Linked.linkAfter Link.next (.bucket i) pre = p at hshape ⊢
  refine ⟨⟨?_, ?_, ?_⟩, ?_⟩
  · rw [purge_capacity]
    exact hshape.of_keeps ⟨rfl, rfl, rfl, fun _ _ => rfl⟩ hshape.alist_le hshape.bucket
      hshape.free hshape.perm
  · show t.deleteNodes - 1 = UInt32.ofNat (List.countP _ (chained (purge t p q).size.toNat _))
    simp only [purge_size, purge_delete]
    rw [h.delete_eq, hout, hXY, List.countP_append, List.countP_append, List.countP_cons, hdel,
      if_pos rfl, ← Nat.add_assoc]
    simp
  · rw [purge_inIterate, hiter]
    intro hno
    cases hno
  · rw [entries, entries, purge_size, hout, pairs_purge, hXY, pairs_append, pairs_append,
      pairs_cons_of_delete hdel]

/-- What purging a part of the table does to its marked nodes. -/
structure Purged (cmp : K → K → ℤ) (hash : K → UInt32) (t t' : I2Table K V)
    (c c' : ℕ → List ℕ) (f' : List ℕ) : Prop where
  valid : Valid cmp hash t' c' f'
  entries : entries t' c' = entries t c
  size : t'.size = t.size
  inIterate : t'.inIterate = t.inIterate
  delete : ∀ a, (t'.nodes a).delete = (t.nodes a).delete
  length : (chained t'.size.toNat c').length ≤ (chained t.size.toNat c).length

theorem Purged.trans {t' t'' : I2Table K V} {c' c'' : ℕ → List ℕ} {f' f'' : List ℕ}
    (h : Purged cmp hash t t' c c' f') (h' : Purged cmp hash t' t'' c' c'' f'') :
    Purged cmp hash t t'' c c'' f'' where
  valid := h'.valid
  entries := h'.entries.trans h.entries
  size := h'.size.trans h.size
  inIterate := h'.inIterate.trans h.inIterate
  delete := fun a => (h'.delete a).trans (h.delete a)
  length := h'.length.trans h.length

theorem Purged.refl (h : Valid cmp hash t c f) : Purged cmp hash t t c c f :=
  ⟨h, rfl, rfl, rfl, fun _ => rfl, le_refl _⟩

theorem purged_step {i q : ℕ} {pre post : List ℕ} (h : Valid cmp hash t c f)
    (hiter : t.inIterate = true) (hi : i < t.size.toNat) (hc : c i = pre ++ q :: post)
    (hdel : (t.nodes q).delete = true) :
    Purged cmp hash t (purge t (Linked.linkAfter .next (.bucket i) pre) q) c
      (Function.update c i (pre ++ post)) (q :: f) := by
  obtain ⟨hvalid, hentries⟩ := h.of_purge hiter hi hc hdel
  refine ⟨hvalid, hentries, purge_size .., purge_inIterate .., purge_delete _ _ _, ?_⟩
  obtain ⟨X, Y, hXY, -, -, hout⟩ := h.chained_around hi hc
  rw [purge_size, hout, hXY]
  simp

/-- The loop over a chain, when the nodes of `pre` are not marked. -/
theorem purgeChain_eq {n i : ℕ} {pre post : List ℕ} (h : Valid cmp hash t c f)
    (hiter : t.inIterate = true) (hlen : (chained t.size.toNat c).length < UInt32.size)
    (hi : i < t.size.toNat) (hc : c i = pre ++ post)
    (hpre : ∀ a ∈ pre, (t.nodes a).delete = false) (hn : post.length < n) :
    ∃ t' l f', purgeChain n (Linked.linkAfter .next (.bucket i) pre) t = some t' ∧
      Purged cmp hash t t' c (Function.update c i l) f' ∧
      ∀ a ∈ l, (t.nodes a).delete = false := by
  induction post generalizing n t c f pre with
  | nil =>
      have hnone : t.deref (Linked.linkAfter .next (.bucket i) pre) = none :=
        h.shape.deref_linkAfter hi hc
      rw [List.append_nil] at hc
      cases n with
      | zero => exact absurd hn (Nat.not_lt_zero _)
      | succ n =>
          refine ⟨t, pre, f, ?_, ?_, hpre⟩
          · rw [purgeChain, hnone]
          · rw [← hc, Function.update_eq_self]
            exact .refl h
  | cons q post ih =>
      have hsome : t.deref (Linked.linkAfter .next (.bucket i) pre) = some q :=
        h.shape.deref_linkAfter hi hc
      cases n with
      | zero => exact absurd hn (Nat.not_lt_zero _)
      | succ n =>
          have hn' : post.length < n := Nat.lt_of_succ_lt_succ hn
          rw [purgeChain, hsome]
          by_cases hzero : t.deleteNodes = 0
          · -- the loop stops early when no marked node is left in the table
            have hnone := (h.deleteNodes_eq_zero hlen).mp hzero
            refine ⟨t, c i, f, if_pos hzero, ?_, fun a ha => ?_⟩
            · rw [Function.update_eq_self]
              exact .refl h
            · exact hnone a (mem_chained.mpr ⟨i, hi, ha⟩)
          cases hdel : (t.nodes q).delete with
          | true =>
              -- the cell stays where it is and now holds the node behind `q`
              have hstep := h.purged_step hiter hi hc hdel
              obtain ⟨t', l, f', hrun, hpurged, hl⟩ := @ih _ _ _ n pre hstep.valid
                (hstep.inIterate.trans hiter) (lt_of_le_of_lt hstep.length hlen)
                (by rwa [hstep.size]) (Function.update_self ..)
                (fun a ha => (hstep.delete a).trans (hpre a ha)) hn'
              rw [Function.update_idem] at hpurged
              refine ⟨t', l, f', ?_, hstep.trans hpurged, fun a ha => ?_⟩
              · rw [← hrun]
                simp [hzero, hdel]
              · rw [← hstep.delete]
                exact hl a ha
          | false =>
              have hpre' : ∀ a ∈ pre ++ [q], (t.nodes a).delete = false := by
                intro a ha
                rcases List.mem_append.mp ha with ha | ha
                · exact hpre a ha
                · rwa [List.mem_singleton.mp ha]
              have hlink : Linked.linkAfter Link.next (.bucket i) (pre ++ [q]) = .next q :=
                Linked.linkAfter_append
              obtain ⟨t', l, f', hrun, hpurged, hl⟩ := ih h hiter hlen hi
                (show c i = (pre ++ [q]) ++ post by simp [hc]) hpre' hn'
              rw [hlink] at hrun
              refine ⟨t', l, f', ?_, hpurged, hl⟩
              rw [← hrun]
              simp [hzero, hdel]

/-- The loop over the buckets stops early only when no node is marked any more. -/
theorem purgeBuckets_eq {is : List ℕ} (h : Valid cmp hash t c f) (hiter : t.inIterate = true)
    (hlen : (chained t.size.toNat c).length < UInt32.size) (his : ∀ i ∈ is, i < t.size.toNat) :
    ∃ t' c' f', purgeBuckets is t = some t' ∧ Purged cmp hash t t' c c' f' ∧
      ∀ j < t.size.toNat, (j ∈ is ∨ ∀ a ∈ c j, (t.nodes a).delete = false) →
        ∀ a ∈ c' j, (t.nodes a).delete = false := by
  induction is generalizing t c f with
  | nil =>
      refine ⟨t, c, f, rfl, .refl h, fun j _ hj => ?_⟩
      rcases hj with hj | hj
      · cases hj
      · exact hj
  | cons i is ih =>
      rw [purgeBuckets]
      by_cases hzero : t.deleteNodes = 0
      · have hnone := (h.deleteNodes_eq_zero hlen).mp hzero
        refine ⟨t, c, f, if_pos hzero, .refl h, fun j hj _ a ha => ?_⟩
        exact hnone a (mem_chained.mpr ⟨j, hj, ha⟩)
      · have hi := his i List.mem_cons_self
        obtain ⟨t₁, l, f₁, hchain, hpurged, hl⟩ := @purgeChain_eq _ _ cmp hash t c f
          (t.capacity + 1) i [] (c i) h hiter hlen hi rfl (fun a ha => by cases ha)
          (h.shape.bucket_length_lt hi)
        obtain ⟨t', c', f', hrun, hpurged', hrest⟩ := ih hpurged.valid
          (hpurged.inIterate.trans hiter) (lt_of_le_of_lt hpurged.length hlen)
          fun j hj => hpurged.size ▸ his j (List.mem_cons_of_mem i hj)
        refine ⟨t', c', f', ?_, hpurged.trans hpurged', fun j hj hdone a ha => ?_⟩
        · rw [if_neg hzero]
          change purgeChain (t.capacity + 1) (.bucket i) t = some t₁ at hchain
          rw [hchain]
          exact hrun
        · rw [← hpurged.delete]
          refine hrest j (hpurged.size ▸ hj) ?_ a ha
          rcases eq_or_ne j i with rfl | hji
          · refine .inr fun b hb => ?_
            rw [Function.update_self] at hb
            rw [hpurged.delete]
            exact hl b hb
          · rcases hdone with hmem | hclean
            · exact .inl ((List.mem_cons.mp hmem).resolve_left hji)
            · refine .inr fun b hb => ?_
              rw [Function.update_of_ne hji] at hb
              rw [hpurged.delete]
              exact hclean b hb

/-- The second loop leaves no node marked. -/
theorem purge_all (h : Valid cmp hash t c f) (hiter : t.inIterate = true)
    (hlen : (chained t.size.toNat c).length < UInt32.size) :
    ∃ t' c' f', purgeBuckets (List.range t.size.toNat) t = some t' ∧
      Purged cmp hash t t' c c' f' ∧
      ∀ a ∈ chained t'.size.toNat c', (t'.nodes a).delete = false := by
  obtain ⟨t', c', f', hrun, hpurged, hclean⟩ :=
    h.purgeBuckets_eq hiter hlen fun i hi => List.mem_range.mp hi
  refine ⟨t', c', f', hrun, hpurged, fun a ha => ?_⟩
  obtain ⟨j, hj, haj⟩ := mem_chained.mp ha
  rw [hpurged.size] at hj
  rw [hpurged.delete]
  exact hclean j hj (.inl (List.mem_range.mpr hj)) a haj

theorem start (h : Valid cmp hash t c f) (hiter : t.inIterate = false) :
    Valid cmp hash { t with inIterate := true, deleteNodes := 0 } c f := by
  refine ⟨h.shape.of_keeps ⟨rfl, rfl, rfl, fun _ _ => rfl⟩ h.shape.alist_le h.shape.bucket
    h.shape.free h.shape.perm, ?_, fun hno => by cases hno⟩
  have hcount : (chained t.size.toNat c).countP (fun a => (t.nodes a).delete) = 0 :=
    List.countP_eq_zero.mpr fun a ha => by simp [h.idle hiter a ha]
  exact (congrArg UInt32.ofNat hcount).symm

theorem finish (h : Valid cmp hash t c f)
    (hclean : ∀ a ∈ chained t.size.toNat c, (t.nodes a).delete = false) :
    Valid cmp hash { t with inIterate := false } c f :=
  ⟨h.shape.of_keeps ⟨rfl, rfl, rfl, fun _ _ => rfl⟩ h.shape.alist_le h.shape.bucket
    h.shape.free h.shape.perm, h.delete_eq, fun _ => hclean⟩

end Valid

/-! ### The whole iteration -/

section Iterate

variable {cmp : K → K → ℤ} {hash : K → UInt32} {t : I2Table K V} {c : ℕ → List ℕ}
  {f : List ℕ} (hcmp : Equivalence (Same cmp))
  (hhash : ∀ x y, Same cmp x y → hash x = hash y)

include hcmp hhash

/-- `I2HashIterate` iterates over the entries of the table, in the order of the
chains. -/
theorem Valid.i2HashIterate_eq (h : Valid cmp hash t c f) (hiter : t.inIterate = false)
    (hlen : (chained t.size.toNat c).length < UInt32.size) (ifunc : I2HashIterateFunc K V σ)
    (data : σ) :
    ∃ t' c' f', i2HashIterate cmp hash t ifunc data =
        some ⟨(visitEntries cmp ifunc (entries t c) (entries t c) data).go, t',
          (visitEntries cmp ifunc (entries t c) (entries t c) data).data,
          (visitEntries cmp ifunc (entries t c) (entries t c) data).events⟩ ∧
      Valid cmp hash t' c' f' ∧ t'.inIterate = false ∧ t'.deleteNodes = 0 ∧
      entries t' c' = (visitEntries cmp ifunc (entries t c) (entries t c) data).map := by
  have hnone := h.idle hiter
  have hstart := h.start hiter
  have hall : ((List.range t.size.toNat).flatMap c).map (stored t) = entries t c := by
    have hfilter : ((chained t.size.toNat c).filter fun a => !(t.nodes a).delete) =
        chained t.size.toNat c :=
      List.filter_eq_self.mpr fun a ha => by simp [hnone a ha]
    rw [entries, pairs, hfilter]
    rfl
  obtain ⟨r, hvisit, hsim⟩ := @visitBuckets_eq _ _ σ cmp hash _ c f ifunc hcmp hhash
    (List.range t.size.toNat) hstart rfl hlen (fun i hi => List.mem_range.mp hi) data
  have hr : ((List.range t.size.toNat).flatMap c).map
      (stored { t with inIterate := true, deleteNodes := 0 }) = entries t c := hall
  rw [hr] at hsim
  change Simulates cmp hash _ c f r (visitEntries cmp ifunc (entries t c) (entries t c) data)
    at hsim
  have hlen' : (chained r.table.size.toNat c).length < UInt32.size := by
    rw [hsim.marks.size]
    exact hlen
  obtain ⟨t', c', f', hpurge, hpurged, hclean'⟩ := hsim.valid.purge_all hsim.marks.inIterate hlen'
  rw [hsim.marks.size] at hpurge
  refine ⟨{ t' with inIterate := false }, c', f', ?_, hpurged.valid.finish hclean', rfl, ?_,
    hpurged.entries.trans hsim.map⟩
  · rw [i2HashIterate, if_neg (by simp [hiter]), hvisit]
    simp only [hpurge, ← hsim.go, ← hsim.data, ← hsim.events]
    rfl
  · have hlen'' := lt_of_le_of_lt hpurged.length hlen'
    exact (hpurged.valid.deleteNodes_eq_zero hlen'').mpr hclean'

end Iterate

end I2util
