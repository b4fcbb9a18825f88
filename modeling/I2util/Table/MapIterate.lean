import I2util.Library.Assoc
import I2util.Table.Shape

/-!
The iteration over a finite map.

`visitEntries` is what `I2HashIterate` is for: the function is called for the
entries in some order, those passed over that have been deleted before their
turn, until it returns False. The calls that the function makes are made on the
map.
-/

namespace I2util

variable {K V σ : Type}

/-- What a part of an iteration over a map leaves behind. -/
structure MapRun (K V σ : Type) where
  go : Bool
  map : List (K × V)
  data : σ
  events : List (Event K V)

/-- What follows a part of an iteration, unless the function returned False. -/
def MapRun.andThen (r : MapRun K V σ) (k : List (K × V) → σ → MapRun K V σ) : MapRun K V σ :=
  if r.go = true then { k r.map r.data with events := r.events ++ (k r.map r.data).events }
  else r

theorem MapRun.andThen_assoc (r : MapRun K V σ) (k k' : List (K × V) → σ → MapRun K V σ) :
    (r.andThen k).andThen k' = r.andThen fun m data => (k m data).andThen k' := by
  cases hgo : r.go with
  | false => simp [andThen, hgo]
  | true =>
      cases hgo' : (k r.map r.data).go with
      | false => simp [andThen, hgo, hgo']
      | true => simp [andThen, hgo, hgo']

section Definitions

variable (cmp : K → K → ℤ)

def TableProg.eval {α : Type} (m : List (K × V)) :
    TableProg K V α → α × List (K × V) × List (Event K V)
  | .ret a => (a, m, [])
  | .numEntries k =>
      let n := UInt32.ofNat m.length
      let r := TableProg.eval m (k n)
      (r.1, r.2.1, .numEntries n :: r.2.2)
  | .fetch key k =>
      let v := Assoc.get (Same cmp) key m
      let r := TableProg.eval m (k v)
      (r.1, r.2.1, .fetch key v :: r.2.2)
  | .delete key k =>
      let rc : ℤ := if Assoc.Has (Same cmp) key m then 0 else -1
      let r := TableProg.eval (Assoc.erase (Same cmp) key m) (k rc)
      (r.1, r.2.1, .delete key rc :: r.2.2)

def visitEntry (ifunc : I2HashIterateFunc K V σ) (e : K × V) (m : List (K × V)) (data : σ) :
    MapRun K V σ :=
  let r := (ifunc e.1 e.2 data).eval cmp m
  ⟨r.1.1, r.2.1, r.1.2, .visit e.1 e.2 :: (r.2.2 ++ [.ret r.1.1])⟩

def visitEntries (ifunc : I2HashIterateFunc K V σ) :
    List (K × V) → List (K × V) → σ → MapRun K V σ
  | [], m, data => ⟨true, m, data, []⟩
  | e :: l, m, data =>
      if Assoc.Has (Same cmp) e.1 m then
        (visitEntry cmp ifunc e m data).andThen (visitEntries ifunc l)
      else visitEntries ifunc l m data

def Event.next (m : List (K × V)) : Event K V → List (K × V)
  | .delete key _ => Assoc.erase (Same cmp) key m
  | _ => m

def mapAfter (m : List (K × V)) (es : List (Event K V)) : List (K × V) :=
  es.foldl (Event.next cmp) m

/-- The event is what a table that stands for `m` does: an entry that is visited
is there, and a call gets the answer of `m`. -/
def Event.Right (m : List (K × V)) : Event K V → Prop
  | .visit key value => (key, value) ∈ m
  | .numEntries n => n.toNat = m.length
  | .fetch key r => r = Assoc.get (Same cmp) key m
  | .delete key rc => rc = if Assoc.Has (Same cmp) key m then 0 else -1
  | .ret _ => True

def Answers : List (K × V) → List (Event K V) → Prop
  | _, [] => True
  | m, e :: es => e.Right cmp m ∧ Answers (e.next cmp m) es

end Definitions

def Event.isCall : Event K V → Bool
  | .visit _ _ => false
  | .ret _ => false
  | _ => true

def Event.visited : Event K V → Option K
  | .visit key _ => some key
  | _ => none

def Event.deleted : Event K V → Option K
  | .delete key _ => some key
  | _ => none

def visits (es : List (Event K V)) : List K := es.filterMap Event.visited

def deleted (es : List (Event K V)) : List K := es.filterMap Event.deleted

/-! ### Sequences of events -/

section Events

variable {cmp : K → K → ℤ} {m : List (K × V)} {es es' : List (Event K V)}

theorem mapAfter_append : mapAfter cmp m (es ++ es') = mapAfter cmp (mapAfter cmp m es) es' :=
  List.foldl_append

theorem mapAfter_eq (m : List (K × V)) (es : List (Event K V)) :
    mapAfter cmp m es = m.filter fun e => ∀ k ∈ deleted es, ¬Same cmp k e.1 := by
  induction es generalizing m with
  | nil => exact (List.filter_eq_self.mpr fun e _ => by simp [deleted]).symm
  | cons ev es ih =>
      show mapAfter cmp (ev.next cmp m) es = _
      rw [ih]
      cases ev with
      | delete key rc =>
          rw [Event.next, Assoc.erase, List.filter_filter]
          refine List.filter_congr fun e _ => ?_
          have hdel : deleted (Event.delete key rc :: es : List (Event K V)) = key :: deleted es :=
            rfl
          simp [hdel, Bool.and_comm]
      | _ => rfl

theorem answers_append :
    Answers cmp m (es ++ es') ↔ Answers cmp m es ∧ Answers cmp (mapAfter cmp m es) es' := by
  induction es generalizing m with
  | nil => simp [Answers, mapAfter]
  | cons e es ih => simp [Answers, mapAfter, ih, and_assoc]

theorem visits_append : visits (es ++ es') = visits es ++ visits es' :=
  List.filterMap_append

theorem next_sublist (e : Event K V) : (e.next cmp m).Sublist m := by
  cases e with
  | delete key rc => exact List.filter_sublist
  | _ => exact List.Sublist.refl m

theorem mapAfter_sublist : (mapAfter cmp m es).Sublist m := by
  induction es generalizing m with
  | nil => exact List.Sublist.refl m
  | cons e es ih => exact ih.trans (next_sublist e)

theorem visits_of_calls (h : ∀ e ∈ es, e.isCall = true) : visits es = [] := by
  rw [visits, List.filterMap_eq_nil_iff]
  intro e he
  have hcall := h e he
  cases e with
  | visit key value => cases hcall
  | _ => rfl

end Events

/-! ### The calls of the function -/

section Eval

variable {cmp : K → K → ℤ} {α : Type}

theorem eval_calls (prog : TableProg K V α) (m : List (K × V)) :
    ∀ e ∈ (prog.eval cmp m).2.2, e.isCall = true := by
  induction prog generalizing m with
  | ret a =>
      intro e he
      cases he
  | numEntries k ih => exact List.forall_mem_cons.mpr ⟨rfl, ih _ m⟩
  | fetch key k ih => exact List.forall_mem_cons.mpr ⟨rfl, ih _ m⟩
  | delete key k ih => exact List.forall_mem_cons.mpr ⟨rfl, ih _ _⟩

theorem eval_map (prog : TableProg K V α) (m : List (K × V)) :
    (prog.eval cmp m).2.1 = mapAfter cmp m (prog.eval cmp m).2.2 := by
  induction prog generalizing m with
  | ret a => rfl
  | numEntries k ih => exact ih _ m
  | fetch key k ih => exact ih _ m
  | delete key k ih => exact ih _ _

theorem eval_answers (prog : TableProg K V α) {m : List (K × V)} (hm : m.length < UInt32.size) :
    Answers cmp m (prog.eval cmp m).2.2 := by
  induction prog generalizing m with
  | ret a => trivial
  | numEntries k ih => exact ⟨UInt32.toNat_ofNat_of_lt' hm, ih _ hm⟩
  | fetch key k ih => exact ⟨rfl, ih _ hm⟩
  | delete key k ih =>
      have hlen : (Assoc.erase (Same cmp) key m).length ≤ m.length :=
        List.length_filter_le _ _
      exact ⟨rfl, ih _ (lt_of_le_of_lt hlen hm)⟩

end Eval

/-! ### Whole iterations -/

section Turns

variable (cmp : K → K → ℤ)

/-- The turn of the entry `e`, after those of `pre` and before those of `post`:
the entry is visited then, unless it has been deleted by then. -/
def Turn (m : List (K × V)) (events : List (Event K V)) (pre : List (K × V)) (e : K × V)
    (post : List (K × V)) : Prop :=
  ∃ es es', events = es ++ es' ∧ (visits es).Sublist (pre.map Prod.fst) ∧
    (e ∉ mapAfter cmp m es ∧ (visits es').Sublist (post.map Prod.fst) ∨
      ∃ rest, es' = .visit e.1 e.2 :: rest ∧ (visits rest).Sublist (post.map Prod.fst))

/-- The events are an iteration over the map `m` in the order of the list `l`.
After the function has returned False nothing happens any more. -/
structure Iteration (l m : List (K × V)) (events : List (Event K V)) : Prop where
  answers : Answers cmp m events
  visits : (visits events).Sublist (l.map Prod.fst)
  turn : Event.ret false ∉ events →
    ∀ pre e post, l = pre ++ e :: post → Turn cmp m events pre e post
  stop : Event.ret false ∉ events.dropLast

end Turns

namespace Iteration

variable {cmp : K → K → ℤ} {l m : List (K × V)} {events calls : List (Event K V)} {e : K × V}

theorem nil : Iteration cmp [] m [] where
  answers := trivial
  visits := List.Sublist.refl []
  turn := fun _ pre e post h => by simp at h
  stop := List.not_mem_nil

/-- A deleted entry is passed over. -/
theorem skip (h : Iteration cmp l m events) (he : e ∉ m) : Iteration cmp (e :: l) m events where
  answers := h.answers
  visits := h.visits.cons e.1
  turn := by
    intro hgo pre e' post heq
    cases pre with
    | nil =>
        obtain ⟨rfl, rfl⟩ := List.cons.inj heq
        exact ⟨[], events, rfl, List.Sublist.refl [], .inl ⟨he, h.visits⟩⟩
    | cons e₀ pre =>
        obtain ⟨rfl, rfl⟩ := List.cons.inj heq
        obtain ⟨es, es', hes, hpre, hpost⟩ := h.turn hgo pre e' post rfl
        exact ⟨es, es', hes, hpre.cons e.1, hpost⟩
  stop := h.stop

theorem ret_notMem (hcalls : ∀ ev ∈ calls, ev.isCall = true) (go : Bool) :
    Event.ret go ∉ Event.visit e.1 e.2 :: calls := by
  intro hmem
  rcases List.mem_cons.mp hmem with hmem | hmem
  · cases hmem
  · cases hcalls _ hmem

theorem visits_calls (hcalls : ∀ ev ∈ calls, ev.isCall = true) (go : Bool) :
    I2util.visits (calls ++ .ret go :: events) = I2util.visits events := by
  rw [visits_append, visits_of_calls hcalls]
  rfl

theorem visits_visit (e : K × V) (es : List (Event K V)) :
    I2util.visits (.visit e.1 e.2 :: es) = e.1 :: I2util.visits es := rfl

/-- An entry is visited, and the function returns False. -/
theorem last (he : e ∈ m) (hcalls : ∀ ev ∈ calls, ev.isCall = true)
    (hanswers : Answers cmp m calls) :
    Iteration cmp (e :: l) m (.visit e.1 e.2 :: (calls ++ [.ret false])) where
  answers := ⟨he, answers_append.mpr ⟨hanswers, trivial, trivial⟩⟩
  visits := by
    rw [visits_visit, visits_calls hcalls]
    exact (List.nil_sublist _).cons_cons e.1
  turn := fun hgo => absurd (by simp) hgo
  stop := by
    rw [← List.cons_append, List.dropLast_concat]
    exact ret_notMem hcalls false

/-- An entry is visited, and the iteration goes on. -/
theorem visit (he : e ∈ m) (hcalls : ∀ ev ∈ calls, ev.isCall = true)
    (hanswers : Answers cmp m calls) (h : Iteration cmp l (mapAfter cmp m calls) events) :
    Iteration cmp (e :: l) m (.visit e.1 e.2 :: (calls ++ .ret true :: events)) where
  answers := ⟨he, answers_append.mpr ⟨hanswers, trivial, h.answers⟩⟩
  visits := by
    rw [visits_visit, visits_calls hcalls]
    exact h.visits.cons_cons e.1
  turn := by
    intro hgo pre e' post heq
    cases pre with
    | nil =>
        obtain ⟨rfl, rfl⟩ := List.cons.inj heq
        -- the turn of the first pair is the first event
        refine ⟨[], _, rfl, List.Sublist.refl [], .inr ⟨_, rfl, ?_⟩⟩
        rw [visits_calls hcalls]
        exact h.visits
    | cons e₀ pre =>
        obtain ⟨rfl, rfl⟩ := List.cons.inj heq
        have hgo' : Event.ret false ∉ events := fun hmem => hgo (by simp [hmem])
        obtain ⟨es, es', hes, hpre, hpost⟩ := h.turn hgo' pre e' post rfl
        refine ⟨.visit e.1 e.2 :: (calls ++ .ret true :: es), es', by simp [hes], ?_, ?_⟩
        · rw [visits_visit, visits_calls hcalls]
          exact hpre.cons_cons e.1
        · have hmap : mapAfter cmp m (.visit e.1 e.2 :: (calls ++ .ret true :: es)) =
              mapAfter cmp (mapAfter cmp m calls) es := mapAfter_append
          rwa [hmap]
  stop := by
    have hret := @ret_notMem _ _ calls e hcalls false
    have hsplit : Event.visit e.1 e.2 :: (calls ++ .ret true :: events) =
        (Event.visit e.1 e.2 :: calls) ++ .ret true :: events := rfl
    rw [hsplit, List.dropLast_append_of_ne_nil (List.cons_ne_nil _ _), List.mem_append, not_or]
    refine ⟨hret, fun hmem => ?_⟩
    cases events with
    | nil => cases hmem
    | cons ev events =>
        rcases List.mem_cons.mp hmem with hmem | hmem
        · cases hmem
        · exact h.stop hmem

end Iteration

section VisitEntries

open Iteration

variable {cmp : K → K → ℤ} {ifunc : I2HashIterateFunc K V σ} {l m s : List (K × V)}

theorem visitEntries_append (data : σ) :
    visitEntries cmp ifunc (l ++ s) m data =
      (visitEntries cmp ifunc l m data).andThen (visitEntries cmp ifunc s) := by
  induction l generalizing m data with
  | nil => rfl
  | cons e l ih =>
      rw [List.cons_append, visitEntries, visitEntries]
      split
      · rw [MapRun.andThen_assoc]
        congr 1
        ext1 m'
        exact funext fun data' => ih data'
      · exact ih data

/-- The events say what becomes of the map. -/
theorem visitEntries_map (data : σ) :
    (visitEntries cmp ifunc l m data).map =
      mapAfter cmp m (visitEntries cmp ifunc l m data).events := by
  have hentry : ∀ (e : K × V) (m : List (K × V)) (data : σ),
      (visitEntry cmp ifunc e m data).map =
        mapAfter cmp m (visitEntry cmp ifunc e m data).events := by
    intro e m data
    show ((ifunc e.1 e.2 data).eval cmp m).2.1 = _
    rw [eval_map]
    simp [visitEntry, mapAfter, Event.next]
  induction l generalizing m data with
  | nil => rfl
  | cons e l ih =>
      rw [visitEntries]
      split
      · rw [MapRun.andThen]
        split
        · rw [ih, mapAfter_append, ← hentry]
        · exact hentry e m data
      · exact ih data

/-- What a run over a list of entries does is an iteration, for a map whose
entries are among those of a map `d`. -/
theorem iteration_of_visitEntries {d : List (K × V)} (hcmp : Equivalence (Same cmp))
    (hd : Assoc.Distinct (Same cmp) d) (hm : m ⊆ d) (hl : l ⊆ d) (hlen : m.length < UInt32.size)
    (data : σ) : Iteration cmp l m (visitEntries cmp ifunc l m data).events := by
  induction l generalizing m data with
  | nil => exact .nil
  | cons e l ih =>
      obtain ⟨he, hl⟩ := List.cons_subset.mp hl
      rw [visitEntries]
      split
      -- the pair is still there, and it is the one the iteration began with
      · rename_i hhas
        have hem : e ∈ m := by
          obtain ⟨e', he', hsame⟩ := hhas
          have hsymm : Std.Symm fun a b : K × V => ¬Same cmp a.1 b.1 :=
            ⟨fun a b hab hba => hab (hcmp.symm hba)⟩
          by_contra hne
          exact hd.forall he (hm he') (fun heq => hne (heq ▸ he')) hsame
        have hcalls := @eval_calls _ _ cmp _ (ifunc e.1 e.2 data) m
        have hanswers := @eval_answers _ _ cmp _ (ifunc e.1 e.2 data) m hlen
        have hmap : (visitEntry cmp ifunc e m data).map =
            mapAfter cmp m ((ifunc e.1 e.2 data).eval cmp m).2.2 := eval_map _ m
        have hsub : (visitEntry cmp ifunc e m data).map.Sublist m := by
          rw [hmap]
          exact mapAfter_sublist
        rw [MapRun.andThen]
        split
        · rename_i hgo
          have hrest := ih (fun a ha => hm (hsub.subset ha)) hl
            (lt_of_le_of_lt hsub.length_le hlen) (visitEntry cmp ifunc e m data).data
          have hret : ((ifunc e.1 e.2 data).eval cmp m).1.1 = true := hgo
          have hrun := @visit _ _ cmp l m _ _ e hem hcalls hanswers (by rwa [← hmap])
          simpa [visitEntry, hret] using hrun
        · rename_i hgo
          have hret : ((ifunc e.1 e.2 data).eval cmp m).1.1 = false := Bool.eq_false_iff.mpr hgo
          have hrun := @last _ _ cmp l m _ e hem hcalls hanswers
          simpa [visitEntry, hret] using hrun
      · -- it was deleted in the meantime
        rename_i hhas
        exact (ih hm hl hlen data).skip fun hem => hhas ⟨e, hem, hcmp.refl e.1⟩

end VisitEntries

end I2util
