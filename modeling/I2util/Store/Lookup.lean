import I2util.Store.Store

/-!
Updating and looking up identities in the two kinds of store.

The key file reader compares at most `I2MAXIDENTITYLEN` characters, which tells
identities apart. The pass-phrase file reader compares over the shorter of the
two lengths, so it tells apart only identities none of which is a prefix of
another.
-/

namespace I2util

namespace Store

theorem entry_isSome_of_mem {F : Format} {s : Store F} {raw : List UInt8} {h : DataText raw}
    {i v : List UInt8} (hmem : FileLine.record raw h ∈ s.lines)
    (hentry : F.entry raw = some (i, v)) : i ∈ s.ids :=
  List.mem_map.mpr ⟨(i, v), List.mem_filterMap.mpr ⟨_, hmem, hentry⟩, rfl⟩

theorem key_distinguishes (s : Store keyFormat) {query : List UInt8}
    (hquery : (0 : UInt8) ∉ query) (hlen : query.length ≤ I2MAXIDENTITYLEN) :
    s.Distinguishes query := by
  intro raw h _ i v hentry
  exact keyLine_query hentry h.no_nul hquery hlen

/-- No stored identity other than the query itself is comparable with it. -/
def Incomparable (s : Store pfFormat) (query : List UInt8) : Prop :=
  ∀ i ∈ s.ids, Comparable i query → i = query

theorem pf_distinguishes (s : Store pfFormat) {query : List UInt8}
    (hquery : (0 : UInt8) ∉ query) (hne : query ≠ []) (hs : s.Incomparable query) :
    s.Distinguishes query := by
  intro raw h hmem i v hentry
  have hjudge : pfFormat.judge (some query) raw =
      if Comparable i query then .hit (i, v) else .skip :=
    pfLine_query hentry h.no_nul hquery hne
  rw [hjudge]
  by_cases heq : i = query
  · subst heq
    rw [if_pos (comparable_self i), if_pos rfl]
  · rw [if_neg (fun hcmp => heq (hs i (entry_isSome_of_mem hmem hentry) hcmp)), if_neg heq]

end Store

/-- Looking `query` up in a file gives `value`, or nothing when that is `none`. -/
def Finds (F : Format) (text query : List UInt8) (value : Option (List UInt8)) : Prop :=
  ∃ r, F.read (some text) 0 (some query) = some r ∧
    match value with
    | some v => 0 < r.rc ∧ r.found = some (query, v)
    | none => r.rc = 0

theorem Store.finds {F : Format} {s : Store F} {query : List UInt8}
    (hs : s.Distinguishes query) : Finds F s.text query (s.get query) :=
  Store.read_get hs le_rfl

/-- Updating a key file: adding and replacing always succeed, deleting succeeds
exactly for a stored identity, the file written is the updated store, and every
identity is then found with its new value. -/
theorem keyStore_update (s : Store keyFormat) (id key : List UInt8) (hid : IsIdentity id)
    (hlen : id.length ≤ I2MAXIDENTITYLEN) (hkey : key.length = I2KEYLEN) :
    keyFormat.update (some s.text) id (some key) =
        some (0, (s.put (.ofKey id key hid hlen hkey)).text) ∧
      keyFormat.update (some s.text) id none =
        (if id ∈ s.ids then some (0, (s.erase id).text)
        else some (1, FileLine.renderCopy s.lines)) ∧
      ∀ query, IsIdentity query → query.length ≤ I2MAXIDENTITYLEN →
        Finds keyFormat s.text query (s.get query) ∧
        Finds keyFormat (s.put (.ofKey id key hid hlen hkey)).text query
          (if query = id then some key else s.get query) ∧
        Finds keyFormat (s.erase id).text query
          (if query = id then none else s.get query) := by
  have hs := s.key_distinguishes hid.no_nul hlen
  refine ⟨Store.update_put (.ofKey id key hid hlen hkey) hs, Store.update_erase hs, ?_⟩
  intro query hquery hqlen
  refine ⟨Store.finds (s.key_distinguishes hquery.no_nul hqlen), ?_, ?_⟩
  · have h := Store.finds ((s.put (.ofKey id key hid hlen hkey)).key_distinguishes
      hquery.no_nul hqlen)
    rwa [Store.get_put] at h
  · have h := Store.finds ((s.erase id).key_distinguishes hquery.no_nul hqlen)
    rwa [Store.get_erase] at h

def sampleLines : List FileLine :=
  [.comment (ascii " keys") (by decide), .blank [blank, tab] (by unfold BlankText; decide),
    (NewRecord.ofKey PFRecord.jdoe.id (List.replicate 16 7) PFRecord.jdoe.id_ok (by decide)
      (by decide)).line]

theorem sampleLines_accepted (raw : List UInt8) (h : DataText raw)
    (hmem : FileLine.record raw h ∈ sampleLines) : (keyFormat.entry raw).isSome = true := by
  simp only [sampleLines, List.mem_cons, reduceCtorEq, List.not_mem_nil, or_false,
    false_or] at hmem
  cases hmem
  decide

def sampleStore : Store keyFormat := ⟨sampleLines, sampleLines_accepted, by decide⟩

theorem keyStore_update_sample :
    keyFormat.update (some sampleStore.text) (ascii "bob") (some (List.replicate 16 9)) =
      some (0, (sampleStore.put (.ofKey (ascii "bob") (List.replicate 16 9)
        ⟨by decide, by decide, by decide⟩ (by decide) (by decide))).text) :=
  (keyStore_update sampleStore (ascii "bob") (List.replicate 16 9)
    ⟨by decide, by decide, by decide⟩ (by decide) (by decide)).1

end I2util
