import Mathlib.Data.List.Basic
import Mathlib.Data.List.Nodup

/-!
Finite maps as lists of pairs, with keys taken up to an equivalence `r`.

The lists keep their order: a new pair goes to the end, and a pair whose value
is replaced stays where it is, with its key. A map with distinct keys is
determined by its list up to permutation.
-/

namespace Assoc

variable {α β : Type*} (r : α → α → Prop) [DecidableRel r]

def get (k : α) : List (α × β) → Option β
  | [] => none
  | e :: l => if r k e.1 then some e.2 else get k l

/-- A key equivalent to `k` occurs. -/
def Has (k : α) (l : List (α × β)) : Prop := ∃ e ∈ l, r k e.1

instance (k : α) (l : List (α × β)) : Decidable (Has r k l) :=
  inferInstanceAs (Decidable (∃ e ∈ l, r k e.1))

def replace (k : α) (v : β) (l : List (α × β)) : List (α × β) :=
  l.map fun e => if r k e.1 then (e.1, v) else e

def put (k : α) (v : β) (l : List (α × β)) : List (α × β) :=
  if Has r k l then replace r k v l else l ++ [(k, v)]

def erase (k : α) (l : List (α × β)) : List (α × β) := l.filter fun e => ¬r k e.1

def Distinct (l : List (α × β)) : Prop := l.Pairwise fun a b => ¬r a.1 b.1

variable {r} {k q : α} {v : β} {l m : List (α × β)}

theorem has_eq_iff {γ : Type*} {k : γ} {l : List (γ × β)} :
    Has (· = ·) k l ↔ k ∈ l.map Prod.fst := by
  simp only [Has, List.mem_map, eq_comm]

theorem distinct_eq_iff {γ : Type*} {l : List (γ × β)} :
    Distinct (· = ·) l ↔ (l.map Prod.fst).Nodup := by
  rw [Distinct, List.Nodup, List.pairwise_map]

@[simp] theorem get_nil (q : α) : get r q ([] : List (α × β)) = none := rfl

theorem get_cons (q : α) (e : α × β) (l : List (α × β)) :
    get r q (e :: l) = if r q e.1 then some e.2 else get r q l := rfl

theorem get_append (q : α) (l m : List (α × β)) :
    get r q (l ++ m) = (get r q l).or (get r q m) := by
  induction l with
  | nil => rfl
  | cons e l ih =>
      rw [List.cons_append, get_cons, get_cons, ih]
      split <;> rfl

theorem get_eq_none : get r k l = none ↔ ¬Has r k l := by
  induction l with
  | nil => simp [Has]
  | cons e l ih =>
      rw [get_cons]
      by_cases he : r k e.1
      · simp [Has, he]
      · simpa [Has, he] using ih

theorem get_eq_some (h : get r k l = some v) : ∃ a, (a, v) ∈ l ∧ r k a := by
  induction l with
  | nil => cases h
  | cons e l ih =>
      rw [get_cons] at h
      split at h
      · rename_i he
        obtain rfl := Option.some.inj h
        exact ⟨e.1, List.mem_cons_self, he⟩
      · obtain ⟨a, ha, hka⟩ := ih h
        exact ⟨a, List.mem_cons_of_mem e ha, hka⟩

theorem replace_of_not_has (h : ¬Has r k l) (v : β) : replace r k v l = l := by
  calc
    replace r k v l = l.map id := by
      apply List.map_congr_left
      intro e he
      exact if_neg fun hk => h ⟨e, he, hk⟩
    _ = l := List.map_id l

theorem erase_of_not_has (h : ¬Has r k l) : erase r k l = l :=
  List.filter_eq_self.mpr fun e he => by simpa using fun hk => h ⟨e, he, hk⟩

theorem keys_replace (k : α) (v : β) (l : List (α × β)) :
    (replace r k v l).map Prod.fst = l.map Prod.fst := by
  rw [replace, List.map_map]
  apply List.map_congr_left
  intro e _
  by_cases h : r k e.1 <;> simp [h]

theorem keys_put (k : α) (v : β) (l : List (α × β)) :
    (put r k v l).map Prod.fst =
      if Has r k l then l.map Prod.fst else l.map Prod.fst ++ [k] := by
  rw [put]
  split
  · exact keys_replace k v l
  · simp

theorem length_put (k : α) (v : β) (l : List (α × β)) :
    (put r k v l).length = if Has r k l then l.length else l.length + 1 := by
  rw [put]
  split
  · rw [replace, List.length_map]
  · rw [List.length_append, List.length_singleton]

omit [DecidableRel r] in
theorem distinct_iff_keys :
    Distinct r l ↔ (l.map Prod.fst).Pairwise fun a b => ¬r a b := by
  rw [Distinct, List.pairwise_map]

theorem distinct_erase (h : Distinct r l) : Distinct r (erase r k l) :=
  h.sublist List.filter_sublist

section Equivalence

variable (hr : Equivalence r)
include hr

theorem get_replace (h : Has r k l) :
    get r q (replace r k v l) = if r q k then some v else get r q l := by
  induction l with
  | nil =>
      obtain ⟨e, he, -⟩ := h
      cases he
  | cons e l ih =>
      rw [replace, List.map_cons, get_cons, get_cons]
      change (if r q (if r k e.1 then (e.1, v) else e).1 then _ else get r q (replace r k v l)) = _
      by_cases hke : r k e.1
      · by_cases hqe : r q e.1
        · have hqk : r q k := hr.trans hqe (hr.symm hke)
          simp [hke, hqe, hqk]
        · have hqk : ¬r q k := fun hqk => hqe (hr.trans hqk hke)
          by_cases hl : Has r k l
          · simp [hke, hqe, hqk, ih hl]
          · simp [hke, hqe, hqk, replace_of_not_has hl]
      · have hl : Has r k l := by
          obtain ⟨d, hd, hkd⟩ := h
          rcases List.mem_cons.mp hd with rfl | hd
          · exact absurd hkd hke
          · exact ⟨d, hd, hkd⟩
        by_cases hqe : r q e.1
        · have hqk : ¬r q k := fun hqk => hke (hr.trans (hr.symm hqk) hqe)
          simp [hke, hqe, hqk]
        · simp [hke, hqe, ih hl]

theorem get_put (k q : α) (v : β) (l : List (α × β)) :
    get r q (put r k v l) = if r q k then some v else get r q l := by
  rw [put]
  split
  · rename_i h
    exact get_replace hr h
  · rename_i h
    rw [get_append, get_cons]
    by_cases hqk : r q k
    · have hnone : get r q l = none := by
        rw [get_eq_none]
        rintro ⟨e, he, hqe⟩
        exact h ⟨e, he, hr.trans (hr.symm hqk) hqe⟩
      simp [hqk, hnone]
    · simp [hqk]

theorem get_erase (k q : α) (l : List (α × β)) :
    get r q (erase r k l) = if r q k then none else get r q l := by
  induction l with
  | nil => simp [erase]
  | cons e l ih =>
      rw [erase] at ih ⊢
      by_cases hke : r k e.1
      · rw [List.filter_cons_of_neg (by simpa using hke), ih, get_cons]
        by_cases hqk : r q k
        · simp [hqk]
        · have hqe : ¬r q e.1 := fun hqe => hqk (hr.trans hqe (hr.symm hke))
          simp [hqk, hqe]
      · rw [List.filter_cons_of_pos (by simpa using hke), get_cons, get_cons, ih]
        by_cases hqe : r q e.1
        · have hqk : ¬r q k := fun hqk => hke (hr.trans (hr.symm hqk) hqe)
          simp [hqe, hqk]
        · simp [hqe]

theorem distinct_put (h : Distinct r l) : Distinct r (put r k v l) := by
  rw [distinct_iff_keys] at h ⊢
  rw [keys_put]
  split
  · exact h
  · rename_i hk
    refine List.pairwise_append.mpr ⟨h, List.pairwise_singleton _ k, ?_⟩
    intro a ha b hb
    obtain rfl := List.mem_singleton.mp hb
    obtain ⟨e, he, rfl⟩ := List.mem_map.mp ha
    exact fun hab => hk ⟨e, he, hr.symm hab⟩

theorem get_of_mem (h : Distinct r l) {a : α} (hmem : (a, v) ∈ l) (hk : r k a) :
    get r k l = some v := by
  induction l with
  | nil => cases hmem
  | cons e l ih =>
      have htail := List.pairwise_cons.mp h
      rw [get_cons]
      rcases List.mem_cons.mp hmem with rfl | hmem
      · rw [if_pos hk]
      · have hne : ¬r k e.1 := fun hke =>
          htail.1 (a, v) hmem (hr.trans (hr.symm hke) hk)
        rw [if_neg hne, ih htail.2 hmem]

/-- With distinct keys the order of the list does not matter. -/
theorem get_perm (h : Distinct r l) (hperm : l.Perm m) (k : α) : get r k l = get r k m := by
  cases hm : get r k m with
  | none =>
      rw [get_eq_none] at hm ⊢
      rintro ⟨e, he, hk⟩
      exact hm ⟨e, hperm.mem_iff.mp he, hk⟩
  | some v =>
      obtain ⟨a, ha, hk⟩ := get_eq_some hm
      exact get_of_mem hr h (hperm.mem_iff.mpr ha) hk

end Equivalence

omit [DecidableRel r] in
theorem has_perm (hperm : l.Perm m) : Has r k l ↔ Has r k m := by
  simp only [Has, hperm.mem_iff]

theorem put_perm (hperm : l.Perm m) (k : α) (v : β) : (put r k v l).Perm (put r k v m) := by
  rw [put, put]
  by_cases h : Has r k l
  · rw [if_pos h, if_pos ((has_perm hperm).mp h)]
    exact hperm.map _
  · rw [if_neg h, if_neg (mt (has_perm hperm).mpr h)]
    exact hperm.append_right _

theorem erase_perm (hperm : l.Perm m) (k : α) : (erase r k l).Perm (erase r k m) :=
  hperm.filter _

end Assoc
