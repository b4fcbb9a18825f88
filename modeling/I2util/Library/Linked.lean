import Mathlib.Data.List.Nodup
import Mathlib.Logic.Function.Basic

/-!
Singly linked lists in memory.

Memory is a function `ptr` from links, the cells that hold a pointer, to nodes.
Every node has one link of its own, `next`. The list that starts at a link is
described by the nodes it visits; two lists are kept apart by the links they use.
-/

namespace Linked

variable {L A : Type*} (next : A → L)

/-- The nodes visited from link `l` on are `as`, and the last link is null. -/
def IsList (ptr : L → Option A) : L → List A → Prop
  | l, [] => ptr l = none
  | l, a :: as => ptr l = some a ∧ IsList ptr (next a) as

def links (l : L) (as : List A) : List L := l :: as.map next

def linkAfter : L → List A → L
  | l, [] => l
  | _, a :: as => linkAfter (next a) as

/-- The loop that looks for a node from link `l` on: the link where it stopped,
and the node that link points to. -/
def search (ptr : L → Option A) (test : A → Bool) : ℕ → L → Option (L × Option A)
  | 0, _ => none
  | n + 1, l =>
      match ptr l with
      | none => some (l, none)
      | some a => if test a = true then some (l, some a) else search ptr test n (next a)

variable {next} {ptr ptr' : L → Option A} {l : L} {as pre post : List A} {a : A}

/-- A list depends on its own links only. -/
theorem IsList.frame (h : IsList next ptr l as) (hptr : ∀ m ∈ links next l as, ptr' m = ptr m) :
    IsList next ptr' l as := by
  induction as generalizing l with
  | nil =>
      rw [IsList] at h ⊢
      rw [hptr l (by simp [links]), h]
  | cons a as ih =>
      rw [IsList] at h ⊢
      refine ⟨?_, ih h.2 fun m hm => hptr m ?_⟩
      · rw [hptr l (by simp [links]), h.1]
      · exact List.mem_cons_of_mem l (by simpa [links] using hm)

/-- The same nodes, from another link that holds the pointer of the first. -/
theorem IsList.move {l' : L} (h : IsList next ptr l as) (hl : ptr' l' = ptr l)
    (hptr : ∀ m ∈ as.map next, ptr' m = ptr m) : IsList next ptr' l' as := by
  cases as with
  | nil => exact hl.trans h
  | cons a as => exact ⟨hl.trans h.1, h.2.frame hptr⟩

theorem IsList.head (h : IsList next ptr l as) : ptr l = as.head? := by
  cases as with
  | nil => exact h
  | cons a as => exact h.1

/-- A link has one list. -/
theorem IsList.unique {bs : List A} (h : IsList next ptr l as) (h' : IsList next ptr l bs) :
    as = bs := by
  induction as generalizing l bs with
  | nil =>
      have hhead := h'.head
      rw [h] at hhead
      exact (List.head?_eq_none_iff.mp hhead.symm).symm
  | cons a as ih =>
      have hhead := h'.head
      rw [h.1] at hhead
      obtain ⟨bs, rfl⟩ := List.head?_eq_some_iff.mp hhead.symm
      rw [ih h.2 h'.2]

theorem linkAfter_mem : linkAfter next l as ∈ links next l as := by
  induction as generalizing l with
  | nil => simp [linkAfter, links]
  | cons a as ih => exact List.mem_cons_of_mem l (@ih (next a))

theorem linkAfter_mem_append : linkAfter next l pre ∈ links next l (pre ++ post) := by
  have hsub : links next l pre ⊆ links next l (pre ++ post) := by
    intro m hm
    simp only [links, List.mem_cons, List.map_append, List.mem_append] at hm ⊢
    exact hm.imp_right .inl
  exact hsub linkAfter_mem

theorem linkAfter_append : linkAfter next l (pre ++ [a]) = next a := by
  induction pre generalizing l with
  | nil => rfl
  | cons b pre ih => exact ih

theorem IsList.drop (h : IsList next ptr l (pre ++ post)) :
    IsList next ptr (linkAfter next l pre) post := by
  induction pre generalizing l with
  | nil => exact h
  | cons b pre ih => exact ih h.2

/-- The loop stops at the first node that passes the test. -/
theorem IsList.search_found {test : A → Bool} {n : ℕ} (h : IsList next ptr l (pre ++ a :: post))
    (hpre : ∀ b ∈ pre, test b = false) (ha : test a = true) (hn : pre.length < n) :
    search next ptr test n l = some (linkAfter next l pre, some a) := by
  induction pre generalizing l n with
  | nil =>
      cases n with
      | zero => omega
      | succ n =>
          have hl : ptr l = some a := h.1
          simp [search, hl, ha, linkAfter]
  | cons b pre ih =>
      cases n with
      | zero => omega
      | succ n =>
          have hl : ptr l = some b := h.1
          have hb := hpre b List.mem_cons_self
          have hrest := ih h.2 (fun c hc => hpre c (List.mem_cons_of_mem b hc))
            (Nat.lt_of_succ_lt_succ hn)
          simpa [search, hl, hb, linkAfter] using hrest

/-- The loop runs to the end of a list that has no such node. -/
theorem IsList.search_end {test : A → Bool} {n : ℕ} (h : IsList next ptr l as)
    (has : ∀ b ∈ as, test b = false) (hn : as.length < n) :
    search next ptr test n l = some (linkAfter next l as, none) := by
  induction as generalizing l n with
  | nil =>
      cases n with
      | zero => omega
      | succ n =>
          have hl : ptr l = none := h
          simp [search, hl, linkAfter]
  | cons b as ih =>
      cases n with
      | zero => omega
      | succ n =>
          have hl : ptr l = some b := h.1
          have hb := has b List.mem_cons_self
          have hrest := ih h.2 (fun c hc => has c (List.mem_cons_of_mem b hc))
            (Nat.lt_of_succ_lt_succ hn)
          simpa [search, hl, hb, linkAfter] using hrest

variable [DecidableEq L]

/-- Taking a node out: the link before it gets the pointer behind it. -/
theorem IsList.unlink (h : IsList next ptr l (pre ++ a :: post))
    (hnodup : (links next l (pre ++ a :: post)).Nodup) :
    IsList next (Function.update ptr (linkAfter next l pre) (ptr (next a))) l (pre ++ post) := by
  induction pre generalizing l with
  | nil =>
      have hpost : IsList next ptr (next a) post := h.2
      have hl : l ∉ links next (next a) post := (List.nodup_cons.mp hnodup).1
      have hframe : ∀ p, ∀ m ∈ post.map next, Function.update ptr l p m = ptr m := by
        intro p m hm
        apply Function.update_of_ne
        rintro rfl
        exact hl (List.mem_cons_of_mem _ hm)
      refine hpost.move ?_ (hframe _)
      exact Function.update_self ..
  | cons b pre ih =>
      have hnodup' := List.nodup_cons.mp hnodup
      refine ⟨?_, ih h.2 hnodup'.2⟩
      have hmem : linkAfter next (next b) pre ∈ links next (next b) (pre ++ a :: post) :=
        linkAfter_mem_append
      have hne : l ≠ linkAfter next (next b) pre := fun heq => hnodup'.1 (heq ▸ hmem)
      show Function.update ptr (linkAfter next (next b) pre) (ptr (next a)) l = some b
      rw [Function.update_of_ne hne]
      exact h.1

/-- Putting a node in front: its link gets the pointer of the first link, which
then points to the node. -/
theorem IsList.push (h : IsList next ptr l as) (ha : next a ∉ links next l as)
    (hl : l ∉ as.map next) :
    IsList next (Function.update (Function.update ptr (next a) (ptr l)) l (some a)) l
      (a :: as) := by
  have hne : next a ≠ l := fun heq => ha (heq ▸ List.mem_cons_self)
  have hnext : ∀ m ∈ as.map next, m ≠ l ∧ m ≠ next a := fun m hm =>
    ⟨fun heq => hl (heq ▸ hm), fun heq => ha (heq ▸ List.mem_cons_of_mem l hm)⟩
  refine ⟨Function.update_self .., h.move ?_ fun m hm => ?_⟩
  · rw [Function.update_of_ne hne, Function.update_self]
  · obtain ⟨h1, h2⟩ := hnext m hm
    rw [Function.update_of_ne h1, Function.update_of_ne h2]

end Linked
