import I2util.Library.Owners
import I2util.Table.Steps

/-!
The blocks of memory of the tables of a program.

The table itself, its buckets, the array `alist` and the blocks of nodes come from the
memory and go back to it. The functions that allocate and free are given here with the
memory; they do to the table what those of `I2util.Table.Table` do.
-/

namespace I2util

open Heap

variable {K V : Type}

/-- What a cell of a block holds: a pointer to a block, if it is one that the functions
here read. -/
abbrev Cell := Option ℕ

/-- A table and where its blocks are. `nodeBlocks` are the pointers that were put in
`alist`; the functions do not read it. -/
structure MemTable (K V : Type) extends I2Table K V where
  cmp : K → K → ℤ
  hash : K → UInt32
  self : ℕ
  bucketsAt : ℕ
  alist : Option ℕ
  nodeBlocks : List ℕ

def answers (h : Heap Cell) : Alloc := ⟨h.avail h.next, h.avail (h.next + 1)⟩

namespace MemTable

section Functions

variable [Inhabited K] [Inhabited V]

/-- The nodes of a new block go to the front of the free list. -/
def withNodes (m : MemTable K V) (b : ℕ) : MemTable K V :=
  let block := m.numAlist * m.hint
  let t := { m.toI2Table with numAlist := m.numAlist + 1 }
  { m with
    toI2Table := (List.range t.hint).foldl (fun t i => pushNew t (block + i)) t
    nodeBlocks := m.nodeBlocks ++ [b] }

/-- The second part of `alloc_freelist`: the block of nodes. -/
def addNodes (m : MemTable K V) (h : Heap Cell) : Option (ℤ × MemTable K V × Heap Cell) :=
  match h.alloc (List.replicate m.hint none) with
  | (none, h) => some (-1, m, h)
  | (some b, h) =>
      -- `table->alist[table->num_alist++] = t;`
      (m.alist.bind fun p => h.write p m.numAlist (some b)).map fun h => (0, m.withNodes b, h)

/-- `alist` has room for more pointers, and is somewhere else. -/
def withArray (m : MemTable K V) (p : ℕ) : MemTable K V :=
  { m with sizeAlist := m.sizeAlist + m.hint, alist := some p }

def allocFreelist (m : MemTable K V) (h : Heap Cell) : Option (ℤ × MemTable K V × Heap Cell) :=
  if m.numAlist ≤ m.sizeAlist then
    match h.realloc m.alist (m.sizeAlist + m.hint) none with
    | (none, h) => some (-1, m, h)
    | (some p, h) => (m.withArray p).addNodes h
  else addNodes m h

def allocBinding (m : MemTable K V) (h : Heap Cell) :
    Option (Option ℕ × MemTable K V × Heap Cell) :=
  (if m.freelist = none then m.allocFreelist h else some (0, m, h)).bind fun (rc, m, h) =>
    if rc ≠ 0 then some (none, m, h)
    else
      match m.freelist with
      | none => none
      | some node => some (some node, { m with toI2Table := takeFree m.toI2Table node }, h)

def i2HashStore (m : MemTable K V) (key : K) (value : V) (h : Heap Cell) :
    Option (ℤ × MemTable K V × Heap Cell) :=
  if m.inIterate = true then none
  else if m.size = 0xFFFFFFFF then some (-1, m, h)
  else
    match m.search (fun b => m.cmp key b.key = 0) (m.index m.hash key) with
    | none => none
    | some (_, some q) => some (0, { m with toI2Table := setValue m.toI2Table q value }, h)
    | some (_, none) =>
        (m.allocBinding h).map fun (node, m, h) =>
          match node with
          | none => (-1, m, h)
          | some q =>
              let i := m.index m.hash key
              (0, { m with toI2Table := insert m.toI2Table i q key value }, h)

/-- `free(table->alist[i])` for the given `i`. -/
def freeNodes (p : ℕ) : List ℕ → Heap Cell → Option (Heap Cell)
  | [], h => some h
  | i :: is, h => ((h.read p i).bind id).bind fun b => (h.release b).bind (freeNodes p is)

/-- What `I2HashClose` and the failing `I2HashInit` free. -/
def freeAll (m : MemTable K V) (h : Heap Cell) : Option (Heap Cell) :=
  (h.release m.bucketsAt).bind fun h =>
    (if m.sizeAlist ≠ 0 then
      m.alist.bind fun p =>
        (freeNodes p (List.range m.numAlist) h).bind fun h => h.release p
    else some h).bind fun h => h.release m.self

def i2HashClose (m : MemTable K V) (h : Heap Cell) : Option (Heap Cell) :=
  if m.inIterate = true then none else m.freeAll h

def empty (hint : UInt32) (cmp : K → K → ℤ) (hash : K → UInt32) (self bucketsAt : ℕ) :
    MemTable K V where
  size := (primeFor hint.toNat (primes.length - 1)).toUInt32
  hint := if hint.toNat ≠ 0 then hint.toNat else primeFor hint.toNat (primes.length - 1)
  length := 0
  buckets := fun _ => none
  freelist := none
  nodes := fun _ => default
  numAlist := 0
  sizeAlist := 0
  inIterate := false
  deleteNodes := 0
  cmp := cmp
  hash := hash
  self := self
  bucketsAt := bucketsAt
  alist := none
  nodeBlocks := []

/-- `I2HashInit`, and the memory also where there is no table. -/
def i2HashInit (hint : UInt32) (cmp : K → K → ℤ) (hash : K → UInt32) (h : Heap Cell) :
    Option (Option (MemTable K V) × Heap Cell) :=
  match h.alloc [] with
  | (none, h) => some (none, h)
  | (some self, h) =>
      match h.alloc (List.replicate (primeFor hint.toNat (primes.length - 1)) none) with
      | (none, h) => (h.release self).map fun h => (none, h)
      | (some bucketsAt, h) =>
          (allocFreelist (empty hint cmp hash self bucketsAt) h).bind fun (rc, m, h) =>
            if rc ≠ 0 then (m.freeAll h).map fun h => (none, h) else some (some m, h)

end Functions

/-! ### What the memory holds -/

def blocks (m : MemTable K V) : List ℕ := m.self :: m.bucketsAt :: (m.alist.toList ++ m.nodeBlocks)

def array (m : MemTable K V) (h : Heap Cell) : List Cell := (m.alist.bind h.mem).getD []

/-- The blocks are there, `alist` has the size that the table says, and its first part holds
the pointers to the blocks of nodes. -/
structure Backed (h : Heap Cell) (m : MemTable K V) : Prop where
  holds : h.Holds m.blocks
  size : (m.array h).length = m.sizeAlist
  pointers : (m.array h).take m.numAlist = m.nodeBlocks.map some
  count : m.nodeBlocks.length = m.numAlist
  grown : m.alist.isSome → 0 < m.sizeAlist
  nodes : ∀ b ∈ m.nodeBlocks, ∃ block, h.mem b = some block ∧ block.length = m.hint

variable {h h' : Heap Cell} {m m' : MemTable K V} {rc : ℤ}

/-- The table is as it was but for its nodes, and has the blocks now that it hands back. -/
structure Grown (h : Heap Cell) (m : MemTable K V) (h' : Heap Cell) (m' : MemTable K V) : Prop where
  backed : Backed h' m'
  exchange : Exchange h m.blocks h' m'.blocks
  cmp : m'.cmp = m.cmp
  hash : m'.hash = m.hash
  hint : m'.hint = m.hint

theorem mem_blocks {p : ℕ} : p ∈ m.blocks ↔
    p = m.self ∨ p = m.bucketsAt ∨ m.alist = some p ∨ p ∈ m.nodeBlocks := by
  simp only [blocks, List.mem_cons, List.mem_append, Option.mem_toList]

/-- Blocks that stay as they are. -/
theorem Backed.congr (hb : Backed h m) (hmem : ∀ p ∈ m.blocks, h'.mem p = h.mem p) :
    Backed h' m := by
  have harray : m.array h' = m.array h := by
    rw [array, array]
    cases halist : m.alist with
    | none => rfl
    | some p => rw [Option.bind_some, Option.bind_some, hmem p (mem_blocks.mpr (by simp [halist]))]
  refine ⟨⟨fun p hp => ?_, hb.holds.nodup⟩, ?_, ?_, hb.count, hb.grown, fun b hb' => ?_⟩
  · rw [hmem p hp]
    exact hb.holds.live p hp
  · rw [harray]
    exact hb.size
  · rw [harray]
    exact hb.pointers
  · rw [hmem b (mem_blocks.mpr (by simp [hb']))]
    exact hb.nodes b hb'

theorem Backed.le (hb : Backed h m) : m.numAlist ≤ m.sizeAlist := by
  have hlen := congrArg List.length hb.pointers
  rw [List.length_take, List.length_map, hb.size, hb.count] at hlen
  omega

theorem Backed.exists_array (hb : Backed h m) (hpos : 0 < m.sizeAlist) :
    ∃ p block, m.alist = some p ∧ h.mem p = some block ∧ block.length = m.sizeAlist ∧
      block.take m.numAlist = m.nodeBlocks.map some := by
  have hsize := hb.size
  have hpointers := hb.pointers
  cases halist : m.alist with
  | none =>
      simp only [array, halist, Option.bind_none, Option.getD_none, List.length_nil] at hsize
      omega
  | some p =>
      obtain ⟨block, hblock⟩ :=
        Option.isSome_iff_exists.mp (hb.holds.live p (mem_blocks.mpr (by simp [halist])))
      simp only [array, halist, Option.bind_some, hblock, Option.getD_some] at hsize hpointers
      exact ⟨p, block, rfl, hblock, hsize, hpointers⟩

/-- `alist` is not a block of nodes. -/
theorem Backed.ne_array (hb : Backed h m) {p b : ℕ} (halist : m.alist = some p)
    (hmem : b ∈ m.nodeBlocks) : b ≠ p := by
  have hnodup := hb.holds.nodup
  rw [blocks, halist, List.nodup_cons, List.nodup_cons] at hnodup
  rintro rfl
  exact (List.nodup_cons.mp hnodup.2.2).1 hmem

theorem Backed.ne_next (hb : Backed h m) {q : ℕ} (hq : q ∈ m.blocks) : q ≠ h.next := by
  rintro rfl
  have hlive := hb.holds.live _ hq
  rw [h.fresh _ (Nat.le_refl _)] at hlive
  cases hlive

theorem exchange_array (hb : Backed h m) (block : List Cell) :
    Exchange h m.blocks (m.alist.elim id (fun q h => h.free q) (h.store block).2)
      (m.withArray h.next).blocks := by
  have hstore := Exchange.store hb.holds block
  cases halist : m.alist with
  | none =>
      refine hstore.to_perm ?_
      show (m.self :: m.bucketsAt :: (m.alist.toList ++ m.nodeBlocks) ++ [h.next]).Perm
        (m.self :: m.bucketsAt :: h.next :: m.nodeBlocks)
      rw [halist]
      exact ((List.perm_append_singleton _ _).cons _).cons _
  | some p =>
      have hperm : (m.blocks ++ [h.next]).Perm (p :: (m.withArray h.next).blocks) := by
        show (m.self :: m.bucketsAt :: (m.alist.toList ++ m.nodeBlocks) ++ [h.next]).Perm
          (p :: m.self :: m.bucketsAt :: h.next :: m.nodeBlocks)
        rw [halist]
        have hnodes : (m.nodeBlocks ++ [h.next]).Perm (h.next :: m.nodeBlocks) :=
          List.perm_append_singleton _ _
        have hfront : (m.self :: m.bucketsAt :: p :: (m.nodeBlocks ++ [h.next])).Perm
            (p :: m.self :: m.bucketsAt :: (m.nodeBlocks ++ [h.next])) :=
          ((List.Perm.swap p m.bucketsAt _).cons m.self).trans (.swap p m.self _)
        exact hfront.trans (((hnodes.cons _).cons _).cons _)
      have hmoved := hstore.to_perm hperm
      exact hmoved.trans (.free hmoved.holds)

theorem map_getElem?_range {α : Type*} {l : List α} {n : ℕ} (hn : n ≤ l.length) :
    (List.range n).map (fun i => l[i]?) = (l.take n).map some := by
  apply List.ext_getElem
  · simp [hn]
  · intro i hi hi'
    have hlen : i < l.length := by
      rw [List.length_map, List.length_range] at hi
      omega
    simp [hlen]

theorem take_set_succ {α : Type*} {l : List α} {n : ℕ} (hn : n < l.length) (a : α) :
    (l.set n a).take (n + 1) = l.take n ++ [a] := by
  rw [List.set_eq_take_append_cons_drop, if_pos hn, List.take_append,
    List.take_of_length_le (by rw [List.length_take]; omega), List.length_take,
    Nat.min_eq_left hn.le, Nat.add_sub_cancel_left]
  rfl

/-- The number of the blocks and their sizes are the same. -/
structure SameSize (t t' : I2Table K V) : Prop where
  hint : t'.hint = t.hint
  numAlist : t'.numAlist = t.numAlist
  sizeAlist : t'.sizeAlist = t.sizeAlist

theorem SameSize.refl (t : I2Table K V) : SameSize t t := ⟨rfl, rfl, rfl⟩

theorem SameSize.trans {t t' t'' : I2Table K V} (h₁ : SameSize t t') (h₂ : SameSize t' t'') :
    SameSize t t'' :=
  ⟨h₂.hint.trans h₁.hint, h₂.numAlist.trans h₁.numAlist, h₂.sizeAlist.trans h₁.sizeAlist⟩

theorem sameSize_freeBinding (t : I2Table K V) (q : ℕ) : SameSize t (freeBinding t q) := by
  constructor <;> simp [freeBinding]

theorem Grown.of_sameSize (hb : Backed h m) {t : I2Table K V} (hs : SameSize m.toI2Table t) :
    Grown h m h { m with toI2Table := t } where
  backed := by
    refine ⟨hb.holds, ?_, ?_, ?_, ?_, ?_⟩
    · exact hb.size.trans hs.sizeAlist.symm
    · show (m.array h).take t.numAlist = _
      rw [hs.numAlist]
      exact hb.pointers
    · exact hb.count.trans hs.numAlist.symm
    · intro hsome
      show 0 < t.sizeAlist
      rw [hs.sizeAlist]
      exact hb.grown hsome
    · intro b hmem
      show ∃ block, h.mem b = some block ∧ block.length = t.hint
      rw [hs.hint]
      exact hb.nodes b hmem
  exchange := .refl hb.holds
  cmp := rfl
  hash := rfl
  hint := hs.hint

theorem Grown.trans {h'' : Heap Cell} {m'' : MemTable K V} (h₁ : Grown h m h' m')
    (h₂ : Grown h' m' h'' m'') : Grown h m h'' m'' where
  backed := h₂.backed
  exchange := h₁.exchange.trans h₂.exchange
  cmp := h₂.cmp.trans h₁.cmp
  hash := h₂.hash.trans h₁.hash
  hint := h₂.hint.trans h₁.hint

theorem realloc_spec (hb : Backed h m) (hhint : 0 < m.hint) :
    h.avail h.next = false ∧ h.realloc m.alist (m.sizeAlist + m.hint) none = (none, h.permit.2) ∨
    h.avail h.next = true ∧
      ∃ h', h.realloc m.alist (m.sizeAlist + m.hint) none = (some h.next, h') ∧
        Grown h m h' (m.withArray h.next) ∧ h'.next = h.next + 1 ∧ h'.avail = h.avail := by
  rcases realloc_cases h m.alist (m.sizeAlist + m.hint) none with hno | ⟨havail, hrealloc⟩
  · exact .inl hno
  · refine .inr ⟨havail, _, hrealloc, ?_, ?_, ?_⟩
    · have harray : (m.alist.bind h.mem).getD [] = m.array h := rfl
      rw [harray, hb.size, Nat.add_sub_cancel_left, List.take_of_length_le (by rw [hb.size]; omega)]
      generalize hblock : m.array h ++ List.replicate m.hint none = block
      have hlen : block.length = m.sizeAlist + m.hint := by
        rw [← hblock, List.length_append, hb.size, List.length_replicate]
      have hkept : ∀ q, m.alist ≠ some q →
          (m.alist.elim id (fun q h => h.free q) (h.store block).2).mem q =
            (h.store block).2.mem q := by
        intro q hq
        cases halist : m.alist with
        | none => rfl
        | some p => exact free_mem_of_ne _ fun hqp => hq (by rw [halist, hqp])
      have hnew : (m.withArray h.next).array
          (m.alist.elim id (fun q h => h.free q) (h.store block).2) = block := by
        show ((Heap.mem _ h.next).getD []) = _
        have hne : m.alist ≠ some h.next := fun hnext =>
          hb.ne_next (mem_blocks.mpr (.inr (.inr (.inl hnext)))) rfl
        rw [hkept h.next hne, store_mem_self, Option.getD_some]
      have he := exchange_array hb block
      refine ⟨⟨he.holds, ?_, ?_, hb.count, ?_, ?_⟩, he, rfl, rfl, rfl⟩
      · rw [hnew]
        exact hlen
      · rw [hnew, ← hblock]
        show (m.array h ++ List.replicate m.hint none).take m.numAlist = m.nodeBlocks.map some
        rw [List.take_append_of_le_length (by rw [hb.size]; exact hb.le), hb.pointers]
      · intro _
        show 0 < m.sizeAlist + m.hint
        omega
      · intro b hmem
        rw [hkept b fun halist => hb.ne_array halist hmem rfl,
          store_mem_of_ne _ _ (hb.ne_next (mem_blocks.mpr (.inr (.inr (.inr hmem)))))]
        exact hb.nodes b hmem
    · cases m.alist <;> rfl
    · cases m.alist <;> rfl

/-! ### Freeing -/

theorem freeNodes_eq {p : ℕ} {block : List Cell} {is ps : List ℕ} (hp : h.mem p = some block)
    (hptr : is.map (fun i => block[i]?) = ps.map fun q => some (some q)) (hne : p ∉ ps) :
    freeNodes p is h = releaseAll ps h := by
  induction is generalizing ps h with
  | nil =>
      obtain rfl := List.map_eq_nil_iff.mp hptr.symm
      rfl
  | cons i is ih =>
      obtain ⟨q, ps, rfl, hq, hptr'⟩ := List.map_eq_cons_iff.mp hptr.symm
      have hpq : p ≠ q := fun hpq => hne (hpq ▸ List.mem_cons_self)
      have hne' : p ∉ ps := fun hmem => hne (List.mem_cons_of_mem q hmem)
      have hread : h.read p i = some (some q) := by
        rw [Heap.read, hp, Option.bind_some]
        exact hq.symm
      rw [freeNodes, hread, Option.bind_some, id, Option.bind_some, releaseAll, release]
      split
      · exact ih ((free_mem_of_ne h hpq).trans hp) hptr'.symm hne'
      · rfl

/-- What is freed, in the order of the source. -/
theorem freeAll_eq (hb : Backed h m) :
    m.freeAll h =
      releaseAll (m.bucketsAt :: (m.nodeBlocks ++ (m.alist.toList ++ [m.self]))) h := by
  have hbuckets : h.release m.bucketsAt = some (h.free m.bucketsAt) := by
    rw [release, if_pos (hb.holds.live _ (mem_blocks.mpr (.inr (.inl rfl))))]
  rw [freeAll, releaseAll, hbuckets, Option.bind_some, Option.bind_some, releaseAll_append]
  by_cases hsize : m.sizeAlist ≠ 0
  · obtain ⟨p, block, halist, hblock, hlen, hpointers⟩ := hb.exists_array (by omega)
    have hne : p ≠ m.bucketsAt := by
      rintro rfl
      have hnodup := hb.holds.nodup
      rw [blocks, halist] at hnodup
      exact (List.nodup_cons.mp (List.nodup_cons.mp hnodup).2).1 List.mem_cons_self
    have hptr : (List.range m.numAlist).map (fun i => block[i]?) =
        m.nodeBlocks.map fun q => some (some q) := by
      rw [map_getElem?_range (by rw [hlen]; exact hb.le), hpointers, List.map_map]
      rfl
    rw [if_pos hsize, halist, Option.bind_some,
      freeNodes_eq ((free_mem_of_ne h hne).trans hblock) hptr
        fun hmem => hb.ne_array halist hmem rfl,
      Option.bind_assoc]
    refine Option.bind_congr fun h₁ _ => ?_
    rw [Option.toList_some, List.singleton_append, releaseAll]
    exact Option.bind_congr fun h₂ _ => (releaseAll_singleton m.self h₂).symm
  · have hnone : m.alist = none := by
      by_contra hsome
      exact hsize (hb.grown (Option.isSome_iff_ne_none.mpr hsome)).ne'
    have hnil : m.nodeBlocks = [] := by
      apply List.eq_nil_of_length_eq_zero
      have hle := hb.le
      have hcount := hb.count
      omega
    rw [if_neg hsize, hnone, hnil, releaseAll, Option.bind_some, Option.bind_some,
      Option.toList_none, List.nil_append, releaseAll_singleton]

theorem freeAll_spec (hb : Backed h m) :
    ∃ h', m.freeAll h = some h' ∧ Exchange h m.blocks h' [] := by
  have hperm : (m.bucketsAt :: (m.nodeBlocks ++ (m.alist.toList ++ [m.self]))).Perm m.blocks := by
    have hself : (m.nodeBlocks ++ (m.alist.toList ++ [m.self])).Perm
        (m.self :: (m.alist.toList ++ m.nodeBlocks)) := by
      refine List.perm_append_comm.trans ?_
      rw [List.append_assoc]
      exact List.perm_middle
    exact (hself.cons _).trans (.swap _ _ _)
  refine ⟨_, (freeAll_eq hb).trans (releaseAll_eq (hb.holds.of_perm hperm.symm)), ?_⟩
  exact (Exchange.free_all _).of_perm hperm

theorem i2HashClose_spec (hb : Backed h m) (hiter : m.inIterate = false) :
    ∃ h', m.i2HashClose h = some h' ∧ Exchange h m.blocks h' [] := by
  rw [i2HashClose, if_neg (by simp [hiter])]
  exact freeAll_spec hb

section Allocation

variable [Inhabited K] [Inhabited V]

theorem sameSize_pushNew (t : I2Table K V) (n k : ℕ) :
    SameSize t ((List.range k).foldl (fun t i => pushNew t (n + i)) t) := by
  induction k with
  | zero => exact .refl t
  | succ k ih =>
      rw [List.range_succ, List.foldl_append, List.foldl_cons, List.foldl_nil]
      refine ih.trans (.trans ?_ (sameSize_freeBinding _ _))
      exact ⟨rfl, rfl, rfl⟩

/-- A new block of nodes, which gets its place in `alist`. -/
theorem addNodes_spec (hb : Backed h m) (hlt : m.numAlist < m.sizeAlist) :
    ∃ rc m' h', m.addNodes h = some (rc, m', h') ∧ Grown h m h' m' ∧
      (h.avail h.next = false ∧ rc = -1 ∧ m' = m ∨
        h.avail h.next = true ∧ rc = 0 ∧ m' = m.withNodes h.next) := by
  cases havail : h.avail h.next with
  | false =>
      refine ⟨-1, m, h.permit.2, by rw [addNodes, alloc_of_not_avail havail], ?_,
        .inl ⟨rfl, rfl, rfl⟩⟩
      exact ⟨hb.congr fun _ _ => rfl, .permit hb.holds, rfl, rfl, rfl⟩
  | true =>
      have ha := alloc_of_avail havail (List.replicate m.hint none)
      obtain ⟨p, block, halist, hblock, hlen, hpointers⟩ := hb.exists_array (by omega)
      have hlive : ∀ q ∈ m.blocks, q ≠ h.next := fun _ => hb.ne_next
      have hp : p ∈ m.blocks := mem_blocks.mpr (by simp [halist])
      have hstored := (store_mem_of_ne h (List.replicate m.hint none) (hlive p hp)).trans hblock
      have hin : m.numAlist < block.length := by omega
      have hgrow := Exchange.alloc hb.holds ha
      have hset := hgrow.trans
        (.set hgrow.holds (List.mem_append_left _ hp) (block.set m.numAlist (some h.next)))
      have hsize : SameSize { m.toI2Table with numAlist := m.numAlist + 1 }
          (m.withNodes h.next).toI2Table := sameSize_pushNew _ _ _
      refine ⟨0, m.withNodes h.next,
        (h.store (List.replicate m.hint none)).2.set p (block.set m.numAlist (some h.next)),
        ?_, ?_, .inr ⟨rfl, rfl, rfl⟩⟩
      · rw [addNodes, ha]
        simp only [halist, Option.bind_some, Heap.write, hstored, if_pos hin, Option.map_some]
      · have hblocks : (m.withNodes h.next).blocks = m.blocks ++ [h.next] := by
          simp [blocks, withNodes]
        have harray : (m.withNodes h.next).array
            ((h.store (List.replicate m.hint none)).2.set p (block.set m.numAlist (some h.next))) =
            block.set m.numAlist (some h.next) := by
          show ((m.alist.bind _).getD []) = _
          rw [halist, Option.bind_some, set_mem_self hstored, Option.getD_some]
        refine ⟨⟨hblocks ▸ hset.holds, ?_, ?_, ?_, ?_, ?_⟩, hblocks ▸ hset, rfl, rfl, hsize.hint⟩
        · rw [harray, List.length_set, hlen, hsize.sizeAlist]
        · rw [harray, hsize.numAlist, take_set_succ hin, hpointers]
          show _ = (m.nodeBlocks ++ [h.next]).map some
          rw [List.map_append]
          rfl
        · rw [hsize.numAlist, ← hb.count]
          exact List.length_append
        · intro _
          rw [hsize.sizeAlist]
          show 0 < m.sizeAlist
          omega
        · intro b hmem
          rw [hsize.hint]
          rcases List.mem_append.mp hmem with hold | hnew
          · rw [set_mem_of_ne _ _ (hb.ne_array halist hold),
              store_mem_of_ne _ _ (hlive b (mem_blocks.mpr (by simp [hold])))]
            exact hb.nodes b hold
          · obtain rfl := List.mem_singleton.mp hnew
            rw [set_mem_of_ne _ _ (hlive p hp).symm, store_mem_self]
            exact ⟨_, rfl, List.length_replicate⟩

/-- `alloc_freelist` in memory: no write misses its block, and the table is the one of the
function without the memory. -/
theorem allocFreelist_spec (hb : Backed h m) (hhint : 0 < m.hint) :
    ∃ rc m' h', m.allocFreelist h = some (rc, m', h') ∧ Grown h m h' m' ∧
      I2util.allocFreelist m.toI2Table (answers h) = (rc, m'.toI2Table) := by
  have hle := hb.le
  rcases realloc_spec hb hhint with
    ⟨havail, hrealloc⟩ | ⟨havail, h₁, hrealloc, hgrown, hnext, hanswer⟩
  · refine ⟨-1, m, h.permit.2, ?_, ⟨hb.congr fun _ _ => rfl, .permit hb.holds, rfl, rfl, rfl⟩, ?_⟩
    · rw [allocFreelist, if_pos hle, hrealloc]
    · rw [I2util.allocFreelist, if_pos ⟨hle, havail⟩]
  · have hlt : (m.withArray h.next).numAlist < (m.withArray h.next).sizeAlist := by
      show m.numAlist < m.sizeAlist + m.hint
      omega
    obtain ⟨rc, m', h', hrun, hnodes, hcase⟩ := addNodes_spec hgrown.backed hlt
    refine ⟨rc, m', h', ?_, hgrown.trans hnodes, ?_⟩
    · rw [allocFreelist, if_pos hle, hrealloc]
      exact hrun
    · rw [hanswer, hnext] at hcase
      have hgot : ¬(m.numAlist ≤ m.sizeAlist ∧ (answers h).realloc = false) := by
        rintro ⟨-, hno⟩
        exact absurd havail (by rw [show h.avail h.next = false from hno]; decide)
      rw [I2util.allocFreelist, if_neg hgot]
      rcases hcase with ⟨hno, rfl, rfl⟩ | ⟨hyes, rfl, rfl⟩
      · simp [answers, hle, hno, withArray]
      · simp [answers, hle, hyes, withArray, withNodes]

theorem allocBinding_spec (hb : Backed h m) (hhint : 0 < m.hint) :
    (m.allocBinding h).map (fun r => (r.1, r.2.1.toI2Table)) =
      I2util.allocBinding m.toI2Table (answers h) ∧
    ∀ node m' h', m.allocBinding h = some (node, m', h') → Grown h m h' m' := by
  have hgrown : ∃ rc m' h', (if m.freelist = none then m.allocFreelist h else some (0, m, h)) =
      some (rc, m', h') ∧ Grown h m h' m' ∧
      (if m.freelist = none then I2util.allocFreelist m.toI2Table (answers h)
        else (0, m.toI2Table)) = (rc, m'.toI2Table) := by
    by_cases hfree : m.freelist = none
    · simp only [if_pos hfree]
      exact allocFreelist_spec hb hhint
    · simp only [if_neg hfree]
      exact ⟨0, m, h, rfl, .of_sameSize hb (.refl _), rfl⟩
  obtain ⟨rc, m', h', hrun, hm', htable⟩ := hgrown
  rw [allocBinding, hrun, Option.bind_some, I2util.allocBinding, htable]
  dsimp only
  by_cases hrc : rc ≠ 0
  · rw [if_pos hrc, if_pos hrc]
    refine ⟨rfl, fun node m'' h'' heq => ?_⟩
    obtain ⟨-, heq⟩ := Prod.mk.inj (Option.some.inj heq)
    obtain ⟨rfl, rfl⟩ := Prod.mk.inj heq
    exact hm'
  · rw [if_neg hrc, if_neg hrc]
    cases hnode : m'.freelist with
    | none => exact ⟨rfl, fun _ _ _ heq => by cases heq⟩
    | some q =>
        refine ⟨rfl, fun node m'' h'' heq => ?_⟩
        obtain ⟨-, heq⟩ := Prod.mk.inj (Option.some.inj heq)
        obtain ⟨rfl, rfl⟩ := Prod.mk.inj heq
        refine hm'.trans (.of_sameSize hm'.backed ?_)
        constructor <;> simp [takeFree]

/-- `I2HashStore` in memory does to the table what it does without, and the blocks that it
allocates are blocks of the table. -/
theorem i2HashStore_spec (hb : Backed h m) (hhint : 0 < m.hint) (key : K) (value : V) :
    (m.i2HashStore key value h).map (fun r => (r.1, r.2.1.toI2Table)) =
      I2util.i2HashStore m.cmp m.hash m.toI2Table key value (answers h) ∧
    ∀ rc m' h', m.i2HashStore key value h = some (rc, m', h') → Grown h m h' m' := by
  have hsame : ∀ t, SameSize m.toI2Table t → ∀ (r : ℤ) rc m' h',
      some (r, { m with toI2Table := t }, h) = some (rc, m', h') → Grown h m h' m' := by
    intro t ht r rc m' h' heq
    obtain ⟨-, heq⟩ := Prod.mk.inj (Option.some.inj heq)
    obtain ⟨rfl, rfl⟩ := Prod.mk.inj heq
    exact .of_sameSize hb ht
  rw [i2HashStore, I2util.i2HashStore]
  split
  · exact ⟨rfl, fun _ _ _ heq => by cases heq⟩
  split
  · exact ⟨rfl, hsame _ (.refl _) _⟩
  rcases hsearch : m.search (fun b => m.cmp key b.key = 0) (m.index m.hash key) with
    _ | ⟨p, _ | q⟩
  · exact ⟨rfl, fun _ _ _ heq => by cases heq⟩
  · obtain ⟨htable, hgrown⟩ := allocBinding_spec hb hhint
    dsimp only
    rw [← htable]
    cases hrun : m.allocBinding h with
    | none => exact ⟨rfl, fun _ _ _ heq => by cases heq⟩
    | some r =>
        obtain ⟨node, m₁, h₁⟩ := r
        have hm₁ := hgrown node m₁ h₁ hrun
        cases node with
        | none =>
            refine ⟨rfl, fun rc m' h' heq => ?_⟩
            obtain ⟨-, heq⟩ := Prod.mk.inj (Option.some.inj heq)
            obtain ⟨rfl, rfl⟩ := Prod.mk.inj heq
            exact hm₁
        | some q =>
            refine ⟨?_, fun rc m' h' heq => ?_⟩
            · rw [← hm₁.hash]
              rfl
            · obtain ⟨-, heq⟩ := Prod.mk.inj (Option.some.inj heq)
              obtain ⟨rfl, rfl⟩ := Prod.mk.inj heq
              exact hm₁.trans (.of_sameSize hm₁.backed ⟨rfl, rfl, rfl⟩)
  · exact ⟨rfl, hsame (setValue m.toI2Table q value) ⟨rfl, rfl, rfl⟩ _⟩

theorem empty_backed (hint : UInt32) (cmp : K → K → ℤ) (hash : K → UInt32) {self bucketsAt : ℕ}
    (hh : h.Holds [self, bucketsAt]) :
    Backed h (empty hint cmp hash self bucketsAt : MemTable K V) where
  holds := hh
  size := rfl
  pointers := rfl
  count := rfl
  grown := fun hsome => by cases hsome
  nodes := fun _ hmem => by cases hmem

theorem empty_hint_pos (hint : UInt32) (cmp : K → K → ℤ) (hash : K → UInt32)
    (self bucketsAt : ℕ) : 0 < (empty hint cmp hash self bucketsAt : MemTable K V).hint := by
  show 0 < if hint.toNat ≠ 0 then hint.toNat else primeFor hint.toNat (primes.length - 1)
  split
  · omega
  · exact (primes_size _ (primeFor_mem hint.toNat (by decide))).2.2

/-- What `I2HashInit` leaves behind: a table with its blocks, or nothing. -/
structure Made (hint : UInt32) (cmp : K → K → ℤ) (hash : K → UInt32) (h : Heap Cell)
    (o : Option (MemTable K V)) (h' : Heap Cell) : Prop where
  exchange : Exchange h [] h' (Program.blocksOf blocks o)
  backed : ∀ m, o = some m → Backed h' m
  functions : ∀ m, o = some m → m.cmp = cmp ∧ m.hash = hash
  table : ∃ mem, I2util.i2HashInit hint (h.avail h.next) (h.avail (h.next + 1)) mem =
    o.map toI2Table

theorem Made.none {hint : UInt32} {cmp : K → K → ℤ} {hash : K → UInt32}
    (he : Exchange h [] h' []) (mem : Alloc)
    (htable : I2util.i2HashInit hint (h.avail h.next) (h.avail (h.next + 1)) mem =
      (none : Option (I2Table K V))) : Made (V := V) hint cmp hash h none h' :=
  ⟨he, fun _ ho => (by cases ho), fun _ ho => (by cases ho), mem, htable⟩

/-- `I2HashInit` in memory. -/
theorem i2HashInit_spec (hint : UInt32) (cmp : K → K → ℤ) (hash : K → UInt32) (h : Heap Cell) :
    ∃ (o : Option (MemTable K V)) (h' : Heap Cell), i2HashInit hint cmp hash h = some (o, h') ∧
      Made hint cmp hash h o h' := by
  rw [i2HashInit]
  cases hself : h.avail h.next with
  | false =>
      rw [alloc_of_not_avail hself]
      exact ⟨none, h.permit.2, rfl, .none (.permit (.nil h)) ⟨true, true⟩ (by rw [hself]; rfl)⟩
  | true =>
      have he₁ : Exchange h [] (h.store []).2 [h.next] := .store (.nil h) []
      rw [alloc_of_avail hself]
      dsimp only
      cases hbuckets : h.avail (h.next + 1) with
      | false =>
          have hno : (h.store []).2.avail (h.store []).2.next = false := hbuckets
          have he₂ := he₁.trans (.permit he₁.holds)
          rw [alloc_of_not_avail hno]
          dsimp only
          rw [release, if_pos (he₂.holds.live _ List.mem_cons_self)]
          refine ⟨none, _, rfl, .none (he₂.trans (.free he₂.holds)) ⟨true, true⟩ ?_⟩
          rw [hself, hbuckets]
          rfl
      | true =>
          have hyes : (h.store []).2.avail (h.store []).2.next = true := hbuckets
          have he₂ := he₁.trans (Exchange.store he₁.holds
            (List.replicate (primeFor hint.toNat (primes.length - 1)) none))
          rw [alloc_of_avail hyes]
          dsimp only
          generalize ((h.store []).2.store
            (List.replicate (primeFor hint.toNat (primes.length - 1)) none)).2 = h₂ at *
          have hempty : Backed h₂ (empty hint cmp hash _ _ : MemTable K V) :=
            empty_backed hint cmp hash he₂.holds
          obtain ⟨rc, m, h', hrun, hgrown, htable⟩ :=
            allocFreelist_spec hempty (empty_hint_pos hint cmp hash _ _)
          have he := he₂.trans hgrown.exchange
          have hinit : ∃ mem, I2util.i2HashInit hint true true mem =
              if rc ≠ 0 then none else some m.toI2Table := by
            refine ⟨answers h₂, ?_⟩
            rw [I2util.i2HashInit, if_neg (by decide)]
            exact congrArg (fun r : ℤ × I2Table K V => if r.1 ≠ 0 then none else some r.2) htable
          obtain ⟨mem, hinit⟩ := hinit
          rw [hrun, Option.bind_some]
          dsimp only
          by_cases hrc : rc ≠ 0
          · obtain ⟨h₃, hfree, hfreed⟩ := freeAll_spec hgrown.backed
            rw [if_pos hrc, hfree]
            refine ⟨none, h₃, rfl, .none (he.trans hfreed) mem ?_⟩
            rw [hself, hbuckets, hinit, if_pos hrc]
          · rw [if_neg hrc]
            refine ⟨some m, h', rfl, he, ?_, ?_, mem, ?_⟩
            · exact fun m' ho => Option.some.inj ho ▸ hgrown.backed
            · exact fun m' ho => Option.some.inj ho ▸ ⟨hgrown.cmp, hgrown.hash⟩
            · rw [hself, hbuckets, hinit, if_neg hrc]
              rfl

end Allocation

/-- The place of a node: the pointer to its block is in `alist`, and the block is there. -/
def NodeAt (m : MemTable K V) (h : Heap Cell) (q : ℕ) : Prop :=
  ∃ p block b nodes, m.alist = some p ∧ h.mem p = some block ∧
    block[q / m.hint]? = some (some b) ∧ b ∈ m.nodeBlocks ∧ h.mem b = some nodes ∧
    q % m.hint < nodes.length

theorem Backed.nodeAt (hb : Backed h m) (hhint : 0 < m.hint) {q : ℕ}
    (hq : q < m.numAlist * m.hint) : m.NodeAt h q := by
  have hk : q / m.hint < m.numAlist := (Nat.div_lt_iff_lt_mul hhint).mpr hq
  obtain ⟨p, block, halist, hblock, hlen, hpointers⟩ :=
    hb.exists_array (Nat.lt_of_lt_of_le (Nat.zero_lt_of_lt hk) hb.le)
  have hk' : q / m.hint < m.nodeBlocks.length := by rw [hb.count]; exact hk
  obtain ⟨nodes, hnodes, hsize⟩ := hb.nodes _ (List.getElem_mem hk')
  refine ⟨p, block, m.nodeBlocks[q / m.hint], nodes, halist, hblock, ?_, List.getElem_mem hk',
    hnodes, by rw [hsize]; exact Nat.mod_lt _ hhint⟩
  have hget := congrArg (fun l => l[q / m.hint]?) hpointers
  simpa [List.getElem?_take, hk, hk'] using hget

end MemTable

end I2util
