import I2util.Library.Assoc
import I2util.Store.Format

/-!
A store: a file of records with distinct identities, comments and blank lines.

`Store.put` and `Store.erase` say what updating a record is for. They act on the
lines in place, and on the entries as the operations of a finite map. The passage
of `main` that rewrites the file refines them.
-/

namespace I2util

/-- A well-formed file: every record is accepted and no identity occurs twice. -/
structure Store (F : Format) where
  lines : List FileLine
  accepted : ∀ raw h, FileLine.record raw h ∈ lines → (F.entry raw).isSome = true
  distinct : ((lines.filterMap F.entryOf).map Prod.fst).Nodup

namespace Store

variable {F : Format}

def text (s : Store F) : List UInt8 := FileLine.render s.lines

/-- The finite map that the file stands for, in the order of its lines. -/
def entries (s : Store F) : List (List UInt8 × List UInt8) := s.lines.filterMap F.entryOf

def ids (s : Store F) : List (List UInt8) := s.entries.map Prod.fst

def get (s : Store F) (id : List UInt8) : Option (List UInt8) :=
  Assoc.get (· = ·) id s.entries

/-- The lines after a record has been set: the line of its identity is replaced
where it stands, or the new line comes at the end. -/
def putLines (F : Format) (r : NewRecord F) (ls : List FileLine) : List FileLine :=
  if r.id ∈ (ls.filterMap F.entryOf).map Prod.fst then
    ls.map fun l => if F.idOf l = some r.id then r.line else l.normal
  else ls.map FileLine.normal ++ [r.line]

def eraseLines (F : Format) (id : List UInt8) (ls : List FileLine) : List FileLine :=
  (ls.filter fun l => F.idOf l ≠ some id).map FileLine.normal

theorem filterMap_normal (ls : List FileLine) :
    (ls.map FileLine.normal).filterMap F.entryOf = ls.filterMap F.entryOf := by
  rw [List.filterMap_map]
  congr 1
  funext l
  simp

@[simp] theorem entryOf_newRecord (r : NewRecord F) : F.entryOf r.line = some (r.id, r.value) :=
  r.entry_eq

theorem entries_putLines (r : NewRecord F) (ls : List FileLine) :
    (putLines F r ls).filterMap F.entryOf =
      Assoc.put (· = ·) r.id r.value (ls.filterMap F.entryOf) := by
  rw [putLines, Assoc.put]
  by_cases hmem : r.id ∈ (ls.filterMap F.entryOf).map Prod.fst
  · rw [if_pos hmem, if_pos (Assoc.has_eq_iff.mpr hmem), Assoc.replace, List.filterMap_map,
      List.map_filterMap]
    congr 1
    funext l
    cases hl : F.entryOf l with
    | none => simp [Format.idOf, hl]
    | some e =>
        by_cases he : r.id = e.1 <;> simp [Format.idOf, hl, he, eq_comm]
  · rw [if_neg hmem, if_neg (mt Assoc.has_eq_iff.mp hmem), List.filterMap_append,
      filterMap_normal]
    simp

theorem entries_eraseLines (id : List UInt8) (ls : List FileLine) :
    (eraseLines F id ls).filterMap F.entryOf =
      Assoc.erase (· = ·) id (ls.filterMap F.entryOf) := by
  rw [eraseLines, filterMap_normal]
  induction ls with
  | nil => rfl
  | cons l ls ih =>
      cases hl : F.entryOf l with
      | none =>
          rw [List.filter_cons_of_pos (by simp [Format.idOf, hl]), List.filterMap_cons_none hl,
            List.filterMap_cons_none hl, ih]
      | some e =>
          rw [List.filterMap_cons_some hl]
          by_cases he : e.1 = id
          · rw [List.filter_cons_of_neg (by simp [Format.idOf, hl, he]), ih, Assoc.erase,
              Assoc.erase, List.filter_cons_of_neg (by simpa using he.symm)]
          · rw [List.filter_cons_of_pos (by simp [Format.idOf, hl, he]),
              List.filterMap_cons_some hl, ih, Assoc.erase, Assoc.erase,
              List.filter_cons_of_pos (by simpa using Ne.symm he)]

def put (s : Store F) (r : NewRecord F) : Store F where
  lines := putLines F r s.lines
  accepted := by
    intro raw h hmem
    rw [putLines] at hmem
    have hnew : FileLine.record raw h = r.line → (F.entry raw).isSome = true := by
      intro heq
      cases heq
      simp [r.entry_eq]
    split at hmem
    · obtain ⟨l, hl, heq⟩ := List.mem_map.mp hmem
      split at heq
      · exact hnew heq.symm
      · exact s.accepted raw h (FileLine.record_mem_normal.mp (List.mem_map.mpr ⟨l, hl, heq⟩))
    · rcases List.mem_append.mp hmem with hmem | hmem
      · exact s.accepted raw h (FileLine.record_mem_normal.mp hmem)
      · exact hnew (List.mem_singleton.mp hmem)
  distinct := by
    rw [entries_putLines, ← Assoc.distinct_eq_iff]
    exact Assoc.distinct_put eq_equivalence (Assoc.distinct_eq_iff.mpr s.distinct)

def erase (s : Store F) (id : List UInt8) : Store F where
  lines := eraseLines F id s.lines
  accepted := by
    intro raw h hmem
    exact s.accepted raw h (List.mem_of_mem_filter (FileLine.record_mem_normal.mp hmem))
  distinct := by
    rw [entries_eraseLines, ← Assoc.distinct_eq_iff]
    exact Assoc.distinct_erase (Assoc.distinct_eq_iff.mpr s.distinct)

theorem get_put (s : Store F) (r : NewRecord F) (q : List UInt8) :
    (s.put r).get q = if q = r.id then some r.value else s.get q := by
  rw [get, entries, put, entries_putLines, Assoc.get_put eq_equivalence]
  rfl

theorem get_erase (s : Store F) (id q : List UInt8) :
    (s.erase id).get q = if q = id then none else s.get q := by
  rw [get, entries, erase, entries_eraseLines, Assoc.get_erase eq_equivalence]
  rfl

theorem mem_ids_iff {s : Store F} {id : List UInt8} : id ∈ s.ids ↔ s.get id ≠ none := by
  rw [ids, get, ne_eq, Assoc.get_eq_none, not_not, Assoc.has_eq_iff]

theorem mem_ids_put (s : Store F) (r : NewRecord F) (q : List UInt8) :
    q ∈ (s.put r).ids ↔ q = r.id ∨ q ∈ s.ids := by
  rw [ids, entries, put, entries_putLines, Assoc.keys_put]
  split
  · rename_i hmem
    rw [Assoc.has_eq_iff] at hmem
    constructor
    · exact .inr
    · rintro (rfl | h)
      · exact hmem
      · exact h
  · rw [List.mem_append, List.mem_singleton, or_comm]
    rfl

/-! ### Where a record stands -/

/-- The line of a stored identity, and the lines around it. -/
structure Split (s : Store F) (id : List UInt8) where
  pre : List FileLine
  raw : List UInt8
  data : DataText raw
  post : List FileLine
  value : List UInt8
  lines_eq : s.lines = pre ++ .record raw data :: post
  entry_eq : F.entry raw = some (id, value)
  pre_ne : ∀ l ∈ pre, F.idOf l ≠ some id
  post_ne : ∀ l ∈ post, F.idOf l ≠ some id

theorem not_mem_ids {ls : List FileLine} {id : List UInt8} :
    id ∉ (ls.filterMap F.entryOf).map Prod.fst ↔ ∀ l ∈ ls, F.idOf l ≠ some id := by
  simp only [Format.idOf, List.mem_map, List.mem_filterMap, Option.map_eq_some_iff, not_exists,
    not_and, ne_eq]
  constructor
  · intro h l hl e he
    exact h e ⟨l, hl, he⟩
  · rintro h e ⟨l, hl, he⟩
    exact h l hl e he

theorem exists_split {s : Store F} {id : List UInt8} (h : id ∈ s.ids) :
    Nonempty (Split s id) := by
  obtain ⟨e, he, rfl⟩ := List.mem_map.mp h
  obtain ⟨l, hl, hentry⟩ := List.mem_filterMap.mp he
  obtain ⟨pre, post, hlines⟩ := List.append_of_mem hl
  have hnodup := s.distinct
  rw [hlines, List.filterMap_append, List.filterMap_cons_some hentry, List.map_append,
    List.map_cons, List.nodup_append, List.nodup_cons] at hnodup
  obtain ⟨-, ⟨hpost, -⟩, hpre⟩ := hnodup
  have hpre : e.1 ∉ (pre.filterMap F.entryOf).map Prod.fst := fun hmem =>
    hpre _ hmem _ List.mem_cons_self rfl
  cases l with
  | record raw data =>
      exact ⟨⟨pre, raw, data, post, e.2, hlines, hentry, not_mem_ids.mp hpre,
        not_mem_ids.mp hpost⟩⟩
  | blank ws hws => cases hentry
  | comment t ht => cases hentry

theorem get_of_split {s : Store F} {id : List UInt8} (sp : Split s id) :
    s.get id = some sp.value := by
  refine Assoc.get_of_mem eq_equivalence (Assoc.distinct_eq_iff.mpr s.distinct) ?_ rfl
  apply List.mem_filterMap.mpr
  exact ⟨.record sp.raw sp.data, by simp [sp.lines_eq], sp.entry_eq⟩

theorem map_put_of_ne {r : NewRecord F} {ls : List FileLine}
    (h : ∀ l ∈ ls, F.idOf l ≠ some r.id) :
    (ls.map fun l => if F.idOf l = some r.id then r.line else l.normal) =
      ls.map FileLine.normal :=
  List.map_congr_left fun l hl => if_neg (h l hl)

theorem put_text_of_split {s : Store F} {r : NewRecord F} (sp : Split s r.id) :
    (s.put r).text =
      FileLine.renderCopy sp.pre ++ (r.raw ++ nl :: FileLine.renderCopy sp.post) := by
  have hid : F.idOf (.record sp.raw sp.data) = some r.id := by
    change (F.entry sp.raw).map Prod.fst = some r.id
    rw [sp.entry_eq]
    rfl
  have hmem : r.id ∈ (s.lines.filterMap F.entryOf).map Prod.fst := by
    by_contra hno
    exact not_mem_ids.mp hno _ (by simp [sp.lines_eq]) hid
  have hlines : (s.put r).lines =
      s.lines.map fun l => if F.idOf l = some r.id then r.line else l.normal := if_pos hmem
  rw [text, hlines, sp.lines_eq, List.map_append, List.map_cons, map_put_of_ne sp.pre_ne,
    map_put_of_ne sp.post_ne, if_pos hid]
  simp [FileLine.render_normal, NewRecord.line, FileLine.text]

theorem put_text_of_not_mem {s : Store F} {r : NewRecord F} (h : r.id ∉ s.ids) :
    (s.put r).text = FileLine.renderCopy s.lines ++ (r.raw ++ [nl]) := by
  have hlines : (s.put r).lines = s.lines.map FileLine.normal ++ [r.line] := if_neg h
  rw [text, hlines]
  simp [FileLine.render_normal, NewRecord.line, FileLine.text]

theorem erase_text_of_split {s : Store F} {id : List UInt8} (sp : Split s id) :
    (s.erase id).text = FileLine.renderCopy sp.pre ++ FileLine.renderCopy sp.post := by
  have hid : F.idOf (.record sp.raw sp.data) = some id := by
    change (F.entry sp.raw).map Prod.fst = some id
    rw [sp.entry_eq]
    rfl
  have hkeep : ∀ ls : List FileLine, (∀ l ∈ ls, F.idOf l ≠ some id) →
      ls.filter (fun l => F.idOf l ≠ some id) = ls := fun ls h =>
    List.filter_eq_self.mpr fun l hl => by simpa using h l hl
  have hlines : (s.erase id).lines =
      (s.lines.filter fun l => F.idOf l ≠ some id).map FileLine.normal := rfl
  rw [text, hlines, sp.lines_eq, List.filter_append,
    List.filter_cons_of_neg (by simp [hid]), hkeep _ sp.pre_ne, hkeep _ sp.post_ne,
    List.map_append, FileLine.render_append, FileLine.render_normal, FileLine.render_normal]

/-! ### Reading a store -/

/-- The reader tells the records of the store apart by their identities when it
looks for `query`. -/
def Distinguishes (s : Store F) (query : List UInt8) : Prop :=
  ∀ raw h, FileLine.record raw h ∈ s.lines → ∀ i v, F.entry raw = some (i, v) →
    F.judge (some query) raw = if i = query then .hit (i, v) else .skip

variable {s : Store F} {query : List UInt8} {rc : ℤ}

theorem judge_skip (hs : s.Distinguishes query) {ls : List FileLine} (hsub : ls ⊆ s.lines)
    (hne : ∀ l ∈ ls, F.idOf l ≠ some query) (raw : List UInt8) (h : DataText raw)
    (hmem : FileLine.record raw h ∈ ls) : F.judge (some query) raw = .skip := by
  have hacc := s.accepted raw h (hsub hmem)
  obtain ⟨⟨i, v⟩, hentry⟩ := Option.isSome_iff_exists.mp hacc
  have hid : F.idOf (.record raw h) = some i := by
    change (F.entry raw).map Prod.fst = some i
    rw [hentry]
    rfl
  have hi : i ≠ query := by
    rintro rfl
    exact hne _ hmem hid
  rw [hs raw h (hsub hmem) i v hentry, if_neg hi]

theorem read_of_not_mem (hs : s.Distinguishes query) (hrc : 0 ≤ rc)
    {ls : List FileLine} (hsub : ls ⊆ s.lines) (hne : ∀ l ∈ ls, F.idOf l ≠ some query) :
    F.read (some (FileLine.render ls)) rc (some query) =
      some ⟨0, none, [], FileLine.renderCopy ls, none⟩ := by
  have h := readRecords_skips (judge_skip hs hsub hne) [] hrc
  rw [List.append_nil, readRecords_nil] at h
  rw [Format.read, h]
  simp [FileRead.print]

theorem read_of_split (hs : s.Distinguishes query) (hrc : 0 ≤ rc) (sp : Split s query) :
    F.read (some s.text) rc (some query) =
      some ⟨rc + sp.pre.length + 1, some (query, sp.value), FileLine.render sp.post,
        FileLine.renderCopy sp.pre, none⟩ := by
  have hsub : sp.pre ⊆ s.lines := fun l hl => by simp [sp.lines_eq, hl]
  have hskips := readRecords_skips (judge_skip hs hsub sp.pre_ne)
    (sp.raw ++ ([nl] ++ FileLine.render sp.post)) hrc
  have hjudge : F.judge (some query) sp.raw = .hit (query, sp.value) := by
    rw [hs sp.raw sp.data (by simp [sp.lines_eq]) _ _ sp.entry_eq, if_pos rfl]
  have hhit := readRecords_hit sp.data (.newline (FileLine.render sp.post))
    (show 0 ≤ rc + (sp.pre.length : ℤ) by omega) hjudge
  have htext : s.text =
      FileLine.render sp.pre ++ (sp.raw ++ ([nl] ++ FileLine.render sp.post)) := by
    rw [text, sp.lines_eq]
    simp [FileLine.text]
  rw [Format.read, htext, hskips, hhit]
  simp [FileRead.print]

/-- A lookup in the file is a lookup in the map. -/
theorem read_get (hs : s.Distinguishes query) (hrc : 0 ≤ rc) :
    ∃ r, F.read (some s.text) rc (some query) = some r ∧
      match s.get query with
      | some v => 0 < r.rc ∧ r.found = some (query, v)
      | none => r.rc = 0 := by
  by_cases hmem : query ∈ s.ids
  · obtain ⟨sp⟩ := exists_split hmem
    refine ⟨_, read_of_split hs hrc sp, ?_⟩
    rw [get_of_split sp]
    exact ⟨by simp only; omega, rfl⟩
  · refine ⟨_, read_of_not_mem hs hrc (List.Subset.refl _) (not_mem_ids.mp hmem), ?_⟩
    rw [get, Assoc.get_eq_none.mpr (mt Assoc.has_eq_iff.mp hmem)]

/-! ### Rewriting a store -/

theorem copyRest_of_ne (hs : s.Distinguishes query) (hrc : 0 ≤ rc) {ls : List FileLine}
    (hsub : ls ⊆ s.lines) (hne : ∀ l ∈ ls, F.idOf l ≠ some query) (out : List UInt8) :
    F.copyRest (some (FileLine.render ls)) rc query out =
      some (0, out ++ FileLine.renderCopy ls) := by
  rw [Format.copyRest, read_of_not_mem hs hrc hsub hne]
  rfl

/-- Adding or replacing a record writes the file of the updated store. -/
theorem update_put (r : NewRecord F) (hs : s.Distinguishes r.id) :
    F.update (some s.text) r.id (some r.value) = some (0, (s.put r).text) := by
  by_cases hmem : r.id ∈ s.ids
  · obtain ⟨sp⟩ := exists_split hmem
    have hsub : sp.post ⊆ s.lines := fun l hl => by simp [sp.lines_eq, hl]
    have hcopy := copyRest_of_ne hs (show 0 ≤ (sp.pre.length : ℤ) + 1 by omega) hsub sp.post_ne
      (FileLine.renderCopy sp.pre ++ (r.raw ++ [nl]))
    have hpos : ¬(sp.pre.length + 1 : ℤ) < 0 := by omega
    rw [put_text_of_split sp, Format.update, read_of_split hs le_rfl sp]
    simp [r.write_eq, hpos] at hcopy ⊢
    exact hcopy
  · have hne := not_mem_ids.mp hmem
    have hread := read_of_not_mem hs le_rfl (List.Subset.refl _) hne
    have hcopy := copyRest_of_ne hs le_rfl (List.nil_subset s.lines) (by simp)
      (FileLine.renderCopy s.lines ++ (r.raw ++ [nl]))
    rw [put_text_of_not_mem hmem, Format.update, text, hread]
    simp [r.write_eq] at hcopy ⊢
    exact hcopy

/-- Deleting a stored identity writes the file of the store without it; deleting
any other one is an error. -/
theorem update_erase (hs : s.Distinguishes query) :
    F.update (some s.text) query none =
      if query ∈ s.ids then some (0, (s.erase query).text)
      else some (1, FileLine.renderCopy s.lines) := by
  by_cases hmem : query ∈ s.ids
  · obtain ⟨sp⟩ := exists_split hmem
    have hsub : sp.post ⊆ s.lines := fun l hl => by simp [sp.lines_eq, hl]
    have hcopy := copyRest_of_ne hs (show 0 ≤ (sp.pre.length : ℤ) + 1 by omega) hsub sp.post_ne
      (FileLine.renderCopy sp.pre)
    have hpos : ¬(sp.pre.length + 1 : ℤ) < 0 := by omega
    have hne : ¬(sp.pre.length + 1 : ℤ) = 0 := by omega
    rw [if_pos hmem, erase_text_of_split sp, Format.update, read_of_split hs le_rfl sp]
    simp [hpos, hne] at hcopy ⊢
    exact hcopy
  · have hread := read_of_not_mem hs le_rfl (List.Subset.refl _) (not_mem_ids.mp hmem)
    rw [if_neg hmem, Format.update, text, hread]
    simp

end Store

end I2util
