import I2util.Library.Heap
import Mathlib.Data.List.Nodup

/-!
Blocks of memory that have an owner.

A part of a program that owns some blocks may write to them, free them and allocate new
ones. It hands back the memory and the blocks that it owns then.
-/

namespace Heap

variable {α : Type*} {h h' h'' : Heap α} {ps ps' ps'' : List ℕ} {p : ℕ}

/-- The block at `p` with room for `n` cells. It moves, and the old one is freed. -/
def realloc (h : Heap α) (p : Option ℕ) (n : ℕ) (junk : α) : Option ℕ × Heap α :=
  let old := (p.bind h.mem).getD []
  let (q, h) := h.alloc (old.take n ++ List.replicate (n - old.length) junk)
  (q, if q.isSome then p.elim h h.free else h)

def read (h : Heap α) (p i : ℕ) : Option α := (h.mem p).bind fun block => block[i]?

/-- A write that stays in the block. -/
def write (h : Heap α) (p i : ℕ) (a : α) : Option (Heap α) :=
  (h.mem p).bind fun block => if i < block.length then some (h.set p (block.set i a)) else none

def release (h : Heap α) (p : ℕ) : Option (Heap α) :=
  if (h.mem p).isSome then some (h.free p) else none

/-- The blocks are there, and none is listed twice. -/
structure Holds (h : Heap α) (ps : List ℕ) : Prop where
  live : ∀ p ∈ ps, (h.mem p).isSome
  nodup : ps.Nodup

/-- The owner of `ps` did something to the memory, and owns `ps'` now. -/
structure Exchange (h : Heap α) (ps : List ℕ) (h' : Heap α) (ps' : List ℕ) : Prop where
  holds : h'.Holds ps'
  frame : ∀ p, (h.mem p).isSome → p ∉ ps → h'.mem p = h.mem p
  left : ∀ p, (h'.mem p).isSome → p ∈ ps' ∨ (h.mem p).isSome ∧ p ∉ ps
  new : ∀ p ∈ ps', p ∈ ps ∨ h.mem p = none

theorem Holds.nil (h : Heap α) : h.Holds [] := ⟨fun _ hp => (by cases hp), List.nodup_nil⟩

theorem Exchange.of_mem_eq (hh : h.Holds ps) (hmem : h'.mem = h.mem) : Exchange h ps h' ps where
  holds := ⟨fun p hp => by rw [hmem]; exact hh.live p hp, hh.nodup⟩
  frame := fun p _ _ => congrFun hmem p
  left := fun p hp => by
    by_cases hmine : p ∈ ps
    · exact .inl hmine
    · exact .inr ⟨by rw [← hmem]; exact hp, hmine⟩
  new := fun _ hp => .inl hp

theorem Exchange.refl (hh : h.Holds ps) : Exchange h ps h ps := .of_mem_eq hh rfl

theorem Exchange.trans (h₁ : Exchange h ps h' ps') (h₂ : Exchange h' ps' h'' ps'') :
    Exchange h ps h'' ps'' where
  holds := h₂.holds
  frame := fun p hp hother => by
    have hkept := h₁.frame p hp hother
    refine (h₂.frame p (by rw [hkept]; exact hp) fun hmine => ?_).trans hkept
    rcases h₁.new p hmine with hold | hnone
    · exact hother hold
    · rw [hnone] at hp
      cases hp
  left := fun p hp => by
    rcases h₂.left p hp with hmine | ⟨hlive, hother⟩
    · exact .inl hmine
    · rcases h₁.left p hlive with hmine | hold
      · exact absurd hmine hother
      · exact .inr hold
  new := fun p hp => by
    rcases h₂.new p hp with hold | hnone
    · exact h₁.new p hold
    · by_cases hmine : p ∈ ps
      · exact .inl hmine
      · right
        by_contra hlive
        rw [h₁.frame p (Option.isSome_iff_ne_none.mpr hlive) hmine] at hnone
        exact hlive hnone

theorem Exchange.permit (hh : h.Holds ps) : Exchange h ps h.permit.2 ps := .of_mem_eq hh rfl

theorem Exchange.set (hh : h.Holds ps) (hp : p ∈ ps) (block : List α) :
    Exchange h ps (h.set p block) ps := by
  obtain ⟨old, hold⟩ := Option.isSome_iff_exists.mp (hh.live p hp)
  have hsome : ∀ q, ((h.set p block).mem q).isSome = (h.mem q).isSome := by
    intro q
    by_cases hqp : q = p
    · rw [hqp, set_mem_self hold, hold]
      rfl
    · rw [set_mem_of_ne h block hqp]
  refine ⟨⟨fun q hq => (hsome q).trans (hh.live q hq), hh.nodup⟩, fun q _ hother => ?_,
    fun q hq => ?_, fun _ hq => .inl hq⟩
  · exact set_mem_of_ne h block fun hqp => hother (hqp ▸ hp)
  · by_cases hmine : q ∈ ps
    · exact .inl hmine
    · exact .inr ⟨(hsome q).symm.trans hq, hmine⟩

theorem Exchange.store (hh : h.Holds ps) (block : List α) :
    Exchange h ps (h.store block).2 (ps ++ [h.next]) := by
  have hnext : h.mem h.next = none := h.fresh h.next (Nat.le_refl _)
  have hne : ∀ q, (h.mem q).isSome → q ≠ h.next := by
    rintro q hq rfl
    rw [hnext] at hq
    cases hq
  have hlive : ∀ q ∈ ps ++ [h.next], ((h.store block).2.mem q).isSome := by
    intro q hq
    rcases List.mem_append.mp hq with hq | hq
    · rw [store_mem_of_ne h block (hne q (hh.live q hq))]
      exact hh.live q hq
    · rw [List.mem_singleton.mp hq, store_mem_self]
      rfl
  refine ⟨⟨hlive, ?_⟩, fun q hq _ => store_mem_of_ne h block (hne q hq), fun q hq => ?_,
    fun q hq => ?_⟩
  · refine List.nodup_append.mpr ⟨hh.nodup, List.nodup_singleton _, fun q hq r hr => ?_⟩
    rw [List.mem_singleton.mp hr]
    exact hne q (hh.live q hq)
  · by_cases hqn : q = h.next
    · exact .inl (List.mem_append_right ps (List.mem_singleton.mpr hqn))
    · rw [store_mem_of_ne h block hqn] at hq
      by_cases hmine : q ∈ ps
      · exact .inl (List.mem_append_left _ hmine)
      · exact .inr ⟨hq, hmine⟩
  · rcases List.mem_append.mp hq with hq | hq
    · exact .inl hq
    · exact .inr (List.mem_singleton.mp hq ▸ hnext)

theorem Exchange.alloc {block : List α} (hh : h.Holds ps) (ha : h.alloc block = (some p, h')) :
    Exchange h ps h' (ps ++ [p]) := by
  obtain ⟨rfl, rfl⟩ := alloc_eq_some ha
  exact .store hh block

theorem alloc_of_avail (havail : h.avail h.next = true) (block : List α) :
    h.alloc block = (some h.next, (h.store block).2) := by
  rw [Heap.alloc, if_pos havail]
  rfl

theorem alloc_of_not_avail (havail : h.avail h.next = false) (block : List α) :
    h.alloc block = (none, h.permit.2) := by
  rw [Heap.alloc, if_neg (by simp [havail])]

theorem alloc_eq_none {block : List α} (ha : h.alloc block = (none, h')) : h' = h.permit.2 := by
  rw [Heap.alloc] at ha
  split at ha
  · cases (Prod.mk.inj ha).1
  · exact (Prod.mk.inj ha).2.symm

theorem Exchange.alloc_none {block : List α} (hh : h.Holds ps)
    (ha : h.alloc block = (none, h')) : Exchange h ps h' ps := by
  rw [alloc_eq_none ha]
  exact .permit hh

theorem free_mem_self (h : Heap α) (p : ℕ) : (h.free p).mem p = none := Function.update_self _ _ _

theorem free_mem_of_ne (h : Heap α) {p q : ℕ} (hq : q ≠ p) : (h.free p).mem q = h.mem q :=
  Function.update_of_ne hq _ _

theorem free_all_mem (ps : List ℕ) (h : Heap α) (q : ℕ) :
    (ps.foldl free h).mem q = if q ∈ ps then none else h.mem q := by
  induction ps generalizing h with
  | nil => rw [if_neg (List.not_mem_nil)]; rfl
  | cons p ps ih =>
      rw [List.foldl_cons, ih]
      by_cases hq : q ∈ ps
      · rw [if_pos hq, if_pos (List.mem_cons_of_mem p hq)]
      · rw [if_neg hq]
        by_cases hqp : q = p
        · rw [if_pos (hqp ▸ List.mem_cons_self), hqp]
          exact free_mem_self h p
        · rw [if_neg (by simp [hqp, hq])]
          exact free_mem_of_ne h hqp

theorem Exchange.free_all (ps : List ℕ) : Exchange h ps (ps.foldl free h) [] where
  holds := .nil _
  frame := fun q _ hother => by rw [free_all_mem, if_neg hother]
  left := fun q hq => by
    rw [free_all_mem] at hq
    split at hq
    · cases hq
    · rename_i hother
      exact .inr ⟨hq, hother⟩
  new := fun _ hq => by cases hq

/-- Only which blocks are owned counts. -/
theorem Holds.of_perm (hh : h.Holds ps) (hperm : ps.Perm ps') : h.Holds ps' :=
  ⟨fun p hp => hh.live p (hperm.mem_iff.mpr hp), hperm.nodup_iff.mp hh.nodup⟩

theorem Exchange.of_perm (he : Exchange h ps h' ps') (hperm : ps.Perm ps'') :
    Exchange h ps'' h' ps' where
  holds := he.holds
  frame := fun p hp hother => he.frame p hp fun hmine => hother (hperm.mem_iff.mp hmine)
  left := fun p hp => (he.left p hp).imp_right fun ⟨hlive, hother⟩ =>
    ⟨hlive, fun hmine => hother (hperm.mem_iff.mpr hmine)⟩
  new := fun p hp => (he.new p hp).imp_left hperm.mem_iff.mp

theorem Exchange.to_perm (he : Exchange h ps h' ps') (hperm : ps'.Perm ps'') :
    Exchange h ps h' ps'' where
  holds := he.holds.of_perm hperm
  frame := he.frame
  left := fun p hp => (he.left p hp).imp_left hperm.mem_iff.mp
  new := fun p hp => he.new p (hperm.mem_iff.mpr hp)

theorem Exchange.free (hh : h.Holds (p :: ps)) : Exchange h (p :: ps) (h.free p) ps := by
  obtain ⟨hp, hnodup⟩ := List.nodup_cons.mp hh.nodup
  have hkept : ∀ q, q ≠ p → (h.free p).mem q = h.mem q := fun q hq => free_mem_of_ne h hq
  refine ⟨⟨fun q hq => ?_, hnodup⟩, fun q _ hother => ?_, fun q hq => ?_, fun q hq => ?_⟩
  · rw [hkept q fun hqp => hp (hqp ▸ hq)]
    exact hh.live q (List.mem_cons_of_mem p hq)
  · exact hkept q fun hqp => hother (hqp ▸ List.mem_cons_self)
  · by_cases hqp : q = p
    · rw [hqp, free_mem_self] at hq
      cases hq
    · rw [hkept q hqp] at hq
      by_cases hmine : q ∈ ps
      · exact .inl hmine
      · exact .inr ⟨hq, fun hmem => (List.mem_cons.mp hmem).elim hqp hmine⟩
  · exact .inl (List.mem_cons_of_mem p hq)

/-! ### Blocks that move and blocks that are given back -/

/-- What `realloc` does when there is memory, and when there is none. -/
theorem realloc_cases (h : Heap α) (p : Option ℕ) (n : ℕ) (junk : α) :
    h.avail h.next = false ∧ h.realloc p n junk = (none, h.permit.2) ∨
    h.avail h.next = true ∧ h.realloc p n junk =
      (some h.next, p.elim id (fun q h => h.free q) (h.store (((p.bind h.mem).getD []).take n ++
        List.replicate (n - ((p.bind h.mem).getD []).length) junk)).2) := by
  cases havail : h.avail h.next with
  | false =>
      left
      rw [realloc, alloc_of_not_avail havail]
      exact ⟨rfl, rfl⟩
  | true =>
      right
      rw [realloc, alloc_of_avail havail]
      refine ⟨rfl, ?_⟩
      cases p <;> rfl

def releaseAll : List ℕ → Heap α → Option (Heap α)
  | [], h => some h
  | p :: ps, h => (h.release p).bind (releaseAll ps)

theorem releaseAll_singleton (p : ℕ) (h : Heap α) : releaseAll [p] h = h.release p := by
  rw [releaseAll]
  exact Option.bind_fun_some _

/-- Blocks that are there, none of them twice, can be freed in any order. -/
theorem releaseAll_eq (hh : h.Holds ps) : releaseAll ps h = some (ps.foldl Heap.free h) := by
  induction ps generalizing h with
  | nil => rfl
  | cons p ps ih =>
      rw [releaseAll, release, if_pos (hh.live p List.mem_cons_self), Option.bind_some,
        ih (Exchange.free hh).holds]
      rfl

theorem releaseAll_append (ps qs : List ℕ) (h : Heap α) :
    releaseAll (ps ++ qs) h = (releaseAll ps h).bind (releaseAll qs) := by
  induction ps generalizing h with
  | nil => rfl
  | cons p ps ih =>
      rw [List.cons_append, releaseAll, releaseAll, Option.bind_assoc]
      exact Option.bind_congr fun h' _ => ih h'

/-! ### Many owners -/

section Owned

variable {ι : Type*} {own : ι → List ℕ}

/-- Each block has one owner, and is listed once. -/
structure OwnedBy (h : Heap α) (own : ι → List ℕ) : Prop where
  holds : ∀ i, h.Holds (own i)
  apart : ∀ i j, i ≠ j → ∀ p ∈ own i, p ∉ own j
  all : ∀ p, (h.mem p).isSome → ∃ i, p ∈ own i

/-- What an owner does is no concern of the others. -/
theorem OwnedBy.frame (ho : h.OwnedBy own) {i j : ι} (he : Exchange h (own i) h' ps')
    (hij : i ≠ j) : ∀ p ∈ own j, h'.mem p = h.mem p :=
  fun p hp => he.frame p ((ho.holds j).live p hp) (ho.apart j i hij.symm p hp)

theorem OwnedBy.exchange [DecidableEq ι] (ho : h.OwnedBy own) {i : ι}
    (he : Exchange h (own i) h' ps') : h'.OwnedBy (Function.update own i ps') := by
  have hapart : ∀ j, j ≠ i → ∀ p ∈ own j, p ∉ ps' := by
    intro j hj p hp hmine
    rcases he.new p hmine with hold | hnone
    · exact ho.apart j i hj p hp hold
    · have hlive := (ho.holds j).live p hp
      rw [hnone] at hlive
      cases hlive
  refine ⟨fun j => ?_, fun j k hjk p hp => ?_, fun p hp => ?_⟩
  · by_cases hj : j = i
    · subst hj
      rw [Function.update_self]
      exact he.holds
    · rw [Function.update_of_ne hj]
      refine ⟨fun p hp => ?_, (ho.holds j).nodup⟩
      rw [ho.frame he (Ne.symm hj) p hp]
      exact (ho.holds j).live p hp
  · by_cases hj : j = i
    · subst hj
      rw [Function.update_self] at hp
      rw [Function.update_of_ne hjk.symm]
      exact fun hk => hapart k hjk.symm p hk hp
    · rw [Function.update_of_ne hj] at hp
      by_cases hk : k = i
      · subst hk
        rw [Function.update_self]
        exact hapart j hj p hp
      · rw [Function.update_of_ne hk]
        exact ho.apart j k hjk p hp
  · rcases he.left p hp with hmine | ⟨hlive, hother⟩
    · exact ⟨i, by rw [Function.update_self]; exact hmine⟩
    · obtain ⟨j, hj⟩ := ho.all p hlive
      have hji : j ≠ i := fun hji => hother (hji ▸ hj)
      exact ⟨j, by rw [Function.update_of_ne hji]; exact hj⟩

end Owned

/-! ### The variables of a program -/

structure Program (α β ι : Type*) where
  heap : Heap α
  var : ι → Option β

namespace Program

variable {β ι : Type*}

def others (h₀ : Heap α) : List ℕ := (List.range h₀.next).filter fun p => (h₀.mem p).isSome

def blocksOf (blocks : β → List ℕ) (o : Option β) : List ℕ := o.elim [] blocks

/-- The blocks of the variables. The other blocks are those of no object. -/
def own (blocks : β → List ℕ) (h₀ : Heap α) (s : Program α β ι) : Option ι → List ℕ
  | none => others h₀
  | some i => blocksOf blocks (s.var i)

/-- The objects own their blocks, and the other blocks are as they were. -/
structure Owned (blocks : β → List ℕ) (h₀ : Heap α) (s : Program α β ι) : Prop where
  owned : s.heap.OwnedBy (own blocks h₀ s)
  before : ∀ p ∈ others h₀, s.heap.mem p = h₀.mem p

/-- Each block belongs to one object, and is listed once. What is not a block of an object
was in the memory before, and is as it was. -/
structure Tidy (blocks : β → List ℕ) (h₀ : Heap α) (s : Program α β ι) : Prop where
  owned : ∀ p, (s.heap.mem p).isSome ↔
    (h₀.mem p).isSome ∨ ∃ i b, s.var i = some b ∧ p ∈ blocks b
  once : ∀ i b, s.var i = some b → (blocks b).Nodup
  apart : ∀ i j b b', s.var i = some b → s.var j = some b' → i ≠ j →
    ∀ p ∈ blocks b, p ∉ blocks b'
  before : ∀ p, (h₀.mem p).isSome → s.heap.mem p = h₀.mem p ∧
    ∀ i b, s.var i = some b → p ∉ blocks b

variable {blocks : β → List ℕ} {h₀ : Heap α} {s : Program α β ι} {i j : ι} {o : Option β} {b : β}

theorem mem_others : p ∈ others h₀ ↔ (h₀.mem p).isSome := by
  rw [others, List.mem_filter, List.mem_range]
  refine ⟨fun h => h.2, fun hlive => ⟨?_, hlive⟩⟩
  by_contra hle
  rw [h₀.fresh p (by omega)] at hlive
  cases hlive

theorem own_some (hb : s.var i = some b) : own blocks h₀ s (some i) = blocks b := by
  rw [own, hb]
  rfl

theorem Owned.start (blocks : β → List ℕ) (h₀ : Heap α) :
    Owned blocks h₀ (⟨h₀, fun _ => none⟩ : Program α β ι) := by
  refine ⟨⟨fun k => ?_, fun k l hkl p hp => ?_, fun p hp => ⟨none, mem_others.mpr hp⟩⟩,
    fun _ _ => rfl⟩
  · cases k with
    | none => exact ⟨fun p hp => mem_others.mp hp, List.nodup_range.filter _⟩
    | some i => exact .nil h₀
  · cases l with
    | none =>
        cases k with
        | none => exact absurd rfl hkl
        | some i => cases hp
    | some j => exact List.not_mem_nil

theorem Owned.holds (hs : Owned blocks h₀ s) (hb : s.var i = some b) :
    s.heap.Holds (blocks b) := by
  have hholds := hs.owned.holds (some i)
  rwa [own_some hb] at hholds

theorem Owned.tidy (hs : Owned blocks h₀ s) : s.Tidy blocks h₀ := by
  refine ⟨fun p => ⟨fun hp => ?_, fun hp => ?_⟩, fun i b hb => (hs.holds hb).nodup,
    fun i j b b' hb hb' hij p hp => ?_,
    fun p hp => ⟨hs.before p (mem_others.mpr hp), fun i b hb hmine => ?_⟩⟩
  · obtain ⟨k, hk⟩ := hs.owned.all p hp
    cases k with
    | none => exact .inl (mem_others.mp hk)
    | some i =>
        cases hb : s.var i with
        | none =>
            rw [own, hb] at hk
            cases hk
        | some b => exact .inr ⟨i, b, hb, by rwa [own_some hb] at hk⟩
  · rcases hp with hold | ⟨i, b, hb, hmine⟩
    · rw [hs.before p (mem_others.mpr hold)]
      exact hold
    · exact (hs.holds hb).live p hmine
  · have hapart := hs.owned.apart (some i) (some j) (by simpa using hij) p
    rw [own_some hb, own_some hb'] at hapart
    exact hapart hp
  · have hapart := hs.owned.apart none (some i) (Option.some_ne_none i).symm p
    rw [own_some hb] at hapart
    exact hapart (mem_others.mpr hp) hmine

/-- Without objects the memory is what it was. -/
theorem Tidy.mem_eq (ht : s.Tidy blocks h₀) (hnone : ∀ i, s.var i = none) :
    s.heap.mem = h₀.mem := by
  funext p
  by_cases hp : (h₀.mem p).isSome
  · exact (ht.before p hp).1
  · have hleft : ¬(s.heap.mem p).isSome := by
      intro hleft
      rcases (ht.owned p).mp hleft with hold | ⟨i, b, hb, -⟩
      · exact hp hold
      · rw [hnone i] at hb
        cases hb
    rw [Option.not_isSome_iff_eq_none.mp hp, Option.not_isSome_iff_eq_none.mp hleft]

/-- What happens to one object is no concern of the others. -/
theorem Owned.frame (hs : Owned blocks h₀ s)
    (he : Exchange s.heap (blocksOf blocks (s.var i)) h' ps') (hij : i ≠ j)
    (hb : s.var j = some b) : ∀ p ∈ blocks b, h'.mem p = s.heap.mem p := by
  have he : Exchange s.heap (own blocks h₀ s (some i)) h' ps' := he
  intro p hp
  exact hs.owned.frame he (show some i ≠ some j by simpa using hij) p (by rwa [own_some hb])

variable [DecidableEq ι]

def put (s : Program α β ι) (i : ι) (h : Heap α) (o : Option β) : Program α β ι :=
  ⟨h, Function.update s.var i o⟩

theorem put_var_self (s : Program α β ι) (i : ι) (h : Heap α) (o : Option β) :
    (s.put i h o).var i = o :=
  Function.update_self _ _ _

theorem put_var_of_ne (s : Program α β ι) (hj : j ≠ i) (h : Heap α) (o : Option β) :
    (s.put i h o).var j = s.var j :=
  Function.update_of_ne hj _ _

theorem put_var_cases {h : Heap α} (hb : (s.put i h o).var j = some b) :
    j = i ∧ o = some b ∨ j ≠ i ∧ s.var j = some b := by
  by_cases hj : j = i
  · subst hj
    exact .inl ⟨rfl, by rwa [put_var_self] at hb⟩
  · exact .inr ⟨hj, by rwa [put_var_of_ne s hj] at hb⟩

theorem own_put (h₀ : Heap α) (s : Program α β ι) (i : ι) (h' : Heap α) (o : Option β) :
    own blocks h₀ (s.put i h' o) =
      Function.update (own blocks h₀ s) (some i) (blocksOf blocks o) := by
  funext k
  cases k with
  | none => rfl
  | some j =>
      by_cases hj : j = i
      · subst hj
        rw [Function.update_self, own, put_var_self]
      · rw [Function.update_of_ne (by simpa using hj), own, own, put_var_of_ne s hj]

theorem Owned.put (hs : Owned blocks h₀ s)
    (he : Exchange s.heap (blocksOf blocks (s.var i)) h' (blocksOf blocks o)) :
    Owned blocks h₀ (s.put i h' o) := by
  have he' : Exchange s.heap (own blocks h₀ s (some i)) h' (blocksOf blocks o) := he
  refine ⟨?_, fun p hp => ?_⟩
  · rw [own_put]
    exact hs.owned.exchange he'
  · exact (hs.owned.frame he' (Option.some_ne_none i) p hp).trans (hs.before p hp)

end Program

end Heap
