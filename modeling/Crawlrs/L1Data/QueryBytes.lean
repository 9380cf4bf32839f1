import Crawlrs.L1Data.Canonicalize
import Mathlib.Algebra.BigOperators.Group.Multiset.Basic
import Mathlib.Data.Multiset.Filter

/-!
# What `canonicalize` keeps of a query

A server reads a query as pairs of bytes (`bytePairs`), the crawler as pairs of
strings: bytes that are not UTF-8 become U+FFFD, and this is what is serialised
again. `?a=%FF` and `?a=%FE` are one canonical URL, and the one that is fetched is
`?a=%EF%BF%BD`.

`carries_iff`: no other query is merged with the one of a URL, and the canonical one
asks for the same data, exactly where U+FFFD is in no parameter that is kept.
-/
namespace Crawlrs

namespace Url

/-! ## Lossy decoding -/

/-- What decodes without a replacement was UTF-8. -/
theorem encode_utf8Lossy (bs : List UInt8) (h : '\uFFFD' ∉ utf8Lossy bs) :
    (utf8Lossy bs).flatMap String.utf8EncodeChar = bs := by
  fun_induction utf8Lossy bs with
  | case1 => rfl
  | case2 b rest c hc ih =>
    obtain ⟨l, hl⟩ := ByteArray.exists_of_utf8DecodeChar?_eq_some hc
    have hbytes : b :: rest = String.utf8EncodeChar c ++ l.data.toList := by
      have := congrArg (fun a => a.data.toList) hl
      simpa using this
    have hlen := String.length_utf8EncodeChar c
    have hpos := c.utf8Size_pos
    have hrest : rest.drop (c.utf8Size - 1) = l.data.toList := by
      have hdrop := congrArg (List.drop c.utf8Size) hbytes
      rw [← hlen, List.drop_left, hlen] at hdrop
      rw [← hdrop]
      obtain ⟨n, hn⟩ : ∃ n, c.utf8Size = n + 1 := ⟨c.utf8Size - 1, by omega⟩
      rw [hn, Nat.add_sub_cancel, List.drop_succ_cons]
    rw [List.flatMap_cons, ih fun hm => h (List.mem_cons_of_mem _ hm), hrest, ← hbytes]
  | case3 b rest hnone ih => exact absurd List.mem_cons_self h

/-- No character starts with this byte. -/
theorem utf8Lossy_ff (rest : List UInt8) : utf8Lossy (0xFF :: rest) = '\uFFFD' :: utf8Lossy rest := by
  have hnone : ((0xFF :: rest).toByteArray).utf8DecodeChar? 0 = none := by
    by_contra hsome
    have hfirst := ByteArray.isUTF8FirstByte_of_isSome_utf8DecodeChar? (Option.isSome_iff_ne_none.2 hsome)
    simp only [List.getElem_toByteArray, List.getElem_cons_zero] at hfirst
    exact absurd hfirst (by decide)
  have htail : illFormedTail 0xFF rest = 0 := by
    cases rest with
    | nil => rfl
    | cons c rest =>
      have hsecond : secondOk 0xFF c = false := by simp [secondOk]
      simp [illFormedTail, hsecond]
  rw [utf8Lossy, hnone, htail]
  simp

theorem utf8Lossy_append (cs : List Char) (rest : List UInt8) :
    utf8Lossy (cs.flatMap String.utf8EncodeChar ++ rest) = cs ++ utf8Lossy rest := by
  induction cs with
  | nil => rfl
  | cons c cs ih => rw [List.flatMap_cons, List.append_assoc, utf8Lossy_encode, ih, List.cons_append]

/-! ## Pairs of bytes -/

/-- A name or value as the server reads it. -/
def byteDecode (bytes : List UInt8) : List UInt8 := percentDecode (bytes.map replacePlus)

/-- A query as the server reads it. -/
def bytePairs (query : List UInt8) : List (List UInt8 × List UInt8) :=
  ((query.splitOn 0x26).filter fun seq => !seq.isEmpty).map fun seq =>
    (byteDecode (seq.takeWhile (· != 0x3D)), byteDecode ((seq.dropWhile (· != 0x3D)).drop 1))

/-- As the crawler reads it. -/
def readText (bs : List UInt8) : String := String.ofList (utf8Lossy bs)

def readPair (p : List UInt8 × List UInt8) : String × String := (readText p.1, readText p.2)

theorem formParse_eq (query : List UInt8) : formParse query = (bytePairs query).map readPair := by
  rw [formParse, bytePairs, List.map_map]
  rfl

/-- The parameters a URL asks for, without the tracking ones. -/
def data : Option Query → Multiset (List UInt8 × List UInt8)
  | none => 0
  | some q => ((bytePairs q.bytes).filter fun p => !isTrackingParam (readText p.1) : List _)

/-- A query of given bytes. -/
def bytePair (p : List UInt8 × List UInt8) : List UInt8 :=
  p.1.flatMap byteSerialize ++ 0x3D :: p.2.flatMap byteSerialize

def serializeBytes (ps : List (List UInt8 × List UInt8)) : List UInt8 := [0x26].intercalate (ps.map bytePair)

def utf8Pair (pair : String × String) : List UInt8 × List UInt8 := (utf8 pair.1, utf8 pair.2)

theorem formSerialize_eq (pairs : List (String × String)) :
    formSerialize pairs = serializeBytes (pairs.map utf8Pair) := by
  rw [formSerialize, serializeBytes, List.map_map]
  rfl

theorem readPair_utf8Pair (pair : String × String) : readPair (utf8Pair pair) = pair := by
  simp [readPair, utf8Pair, readText, utf8Lossy_utf8]

theorem mem_bytePair {p : List UInt8 × List UInt8} {b : UInt8} (h : b ∈ bytePair p) :
    FormByte b ∨ b = 0x3D := by
  rcases List.mem_append.1 h with h | h
  · exact Or.inl (mem_byteSerialize h)
  · rcases List.mem_cons.1 h with h | h
    · exact Or.inr h
    · exact Or.inl (mem_byteSerialize h)

/-- Given bytes are read back. -/
theorem bytePairs_serializeBytes {ps : List (List UInt8 × List UInt8)} (hne : ps ≠ []) :
    bytePairs (serializeBytes ps) = ps := by
  rw [bytePairs, serializeBytes, splitOn_intercalate_amp (by simpa using hne), List.map_map]
  · refine (List.map_congr_left (g := id) fun p _ => ?_).trans (List.map_id ps)
    have hform : ∀ b ∈ p.1.flatMap byteSerialize, FormByte b := fun b hb => mem_byteSerialize hb
    obtain ⟨hname, hvalue⟩ := cut_equals hform (p.2.flatMap byteSerialize)
    simp only [Function.comp_apply, bytePair, hname, hvalue, byteDecode, percentDecode_flatMap, id]
  · intro seq hseq
    obtain ⟨p, -, rfl⟩ := List.mem_map.1 hseq
    exact ⟨by simp [bytePair], fun b hb => mem_bytePair hb⟩

theorem setQuery_serializeBytes (ps : List (List UInt8 × List UInt8)) :
    (setQuery (serializeBytes ps)).bytes = serializeBytes ps := by
  refine setQuery_bytes fun b hb => formByte_not_encoded (mem_intercalate_amp ?_ hb)
  intro seq hseq b hb
  obtain ⟨p, -, rfl⟩ := List.mem_map.1 hseq
  exact mem_bytePair hb

/-! ## What is kept -/

def kept : Option Query → List (String × String)
  | none => []
  | some q => keptPairs q

theorem canonical_eq (q : Option Query) :
    Query.canonical q = if kept q = [] then none else some (setQuery (formSerialize (kept q))) := by
  cases q <;> rfl

theorem canonical_congr {q r : Option Query} (h : kept q = kept r) :
    Query.canonical q = Query.canonical r := by
  rw [canonical_eq, canonical_eq, h]

theorem kept_canonical (q : Option Query) : kept (Query.canonical q) = kept q := by
  rw [canonical_eq]
  cases q with
  | none => rfl
  | some q =>
    split
    · rename_i h
      exact h.symm
    · rename_i h
      exact keptPairs_formSerialize h

theorem map_data (q : Option Query) : (data q).map readPair = (kept q : Multiset (String × String)) := by
  cases q with
  | none => rfl
  | some q =>
    have hperm := List.mergeSort_perm ((formParse q.bytes).filter fun pair => !isTrackingParam pair.1) pairLe
    rw [data, kept, keptPairs, Multiset.coe_eq_coe.2 hperm, Multiset.map_coe, formParse_eq, List.filter_map]
    rfl

/-- The data of a query of kept pairs. -/
theorem data_serializeBytes {q : Query} {ps : List (List UInt8 × List UInt8)} (hne : ps ≠ [])
    (h : ps.map readPair = keptPairs q) : data (some (setQuery (serializeBytes ps))) = ps := by
  rw [data, setQuery_serializeBytes, bytePairs_serializeBytes hne]
  refine congrArg _ (List.filter_eq_self.2 ?_)
  intro p hp
  have hmem : readPair p ∈ keptPairs q := by
    rw [← h]
    exact List.mem_map_of_mem hp
  exact (List.mem_filter.1 (List.mem_mergeSort.1 hmem)).2

/-- U+FFFD is in no name and no value. -/
def Unreplaced (pairs : List (String × String)) : Prop :=
  ∀ pair ∈ pairs, '\uFFFD' ∉ pair.1.toList ∧ '\uFFFD' ∉ pair.2.toList

theorem unreplaced_kept_iff (q : Option Query) :
    Unreplaced (kept q) ↔ ∀ p ∈ data q, '\uFFFD' ∉ utf8Lossy p.1 ∧ '\uFFFD' ∉ utf8Lossy p.2 := by
  have hmem : ∀ pair, pair ∈ kept q ↔ ∃ p ∈ data q, readPair p = pair := by
    intro pair
    rw [← Multiset.mem_coe, ← map_data, Multiset.mem_map]
  constructor
  · intro h p hp
    simpa [readPair, readText] using h (readPair p) ((hmem _).2 ⟨p, hp, rfl⟩)
  · intro h pair hpair
    obtain ⟨p, hp, rfl⟩ := (hmem pair).1 hpair
    simpa [readPair, readText] using h p hp

/-- Where nothing was replaced the strings determine the bytes. -/
theorem data_eq_of_unreplaced {q : Option Query} (h : Unreplaced (kept q)) :
    data q = ((kept q).map utf8Pair : List (List UInt8 × List UInt8)) := by
  have hback : ∀ p ∈ data q, utf8Pair (readPair p) = p := by
    intro p hp
    obtain ⟨hname, hvalue⟩ := (unreplaced_kept_iff q).1 h p hp
    simp [utf8Pair, readPair, readText, utf8, encode_utf8Lossy, hname, hvalue]
  calc data q = (data q).map (fun p => utf8Pair (readPair p)) :=
        ((Multiset.map_congr rfl hback).trans (Multiset.map_id' _)).symm
    _ = ((data q).map readPair).map utf8Pair := (Multiset.map_map utf8Pair readPair _).symm
    _ = ((kept q).map utf8Pair : List _) := by rw [map_data, Multiset.map_coe]

/-- A string with a replacement character in it is also read from other bytes. -/
theorem exists_shorter {s : String} (h : '\uFFFD' ∈ s.toList) :
    ∃ bs, readText bs = s ∧ bs.length < (utf8 s).length := by
  obtain ⟨a, b, hab⟩ := List.append_of_mem h
  refine ⟨a.flatMap String.utf8EncodeChar ++ 0xFF :: b.flatMap String.utf8EncodeChar, ?_, ?_⟩
  · have hb : utf8Lossy (b.flatMap String.utf8EncodeChar) = b := by
      have happ := utf8Lossy_append b []
      rw [List.append_nil, utf8Lossy, List.append_nil] at happ
      exact happ
    rw [readText, utf8Lossy_append, utf8Lossy_ff, hb, ← hab, String.ofList_toList]
  · have hthree : (String.utf8EncodeChar '\uFFFD').length = 3 := by decide
    simp only [utf8, hab, List.flatMap_append, List.flatMap_cons, List.length_append, List.length_cons,
      hthree]
    omega

/-- So is a pair. -/
theorem exists_shorter_pair {pair : String × String}
    (h : '\uFFFD' ∈ pair.1.toList ∨ '\uFFFD' ∈ pair.2.toList) :
    ∃ p, readPair p = pair ∧ p.1.length + p.2.length < (utf8 pair.1).length + (utf8 pair.2).length := by
  rcases h with h | h
  · obtain ⟨bs, hread, hlen⟩ := exists_shorter h
    refine ⟨(bs, utf8 pair.2), ?_, by simpa using hlen⟩
    simp [readPair, readText, utf8Lossy_utf8] at hread ⊢
    rw [hread]
  · obtain ⟨bs, hread, hlen⟩ := exists_shorter h
    refine ⟨(utf8 pair.1, bs), ?_, by simpa using hlen⟩
    simp [readPair, readText, utf8Lossy_utf8] at hread ⊢
    rw [hread]

/-- Kept pairs with a replacement character among them are also read from other bytes. -/
theorem exists_merged {pairs : List (String × String)} (h : ¬ Unreplaced pairs) :
    ∃ ps : List (List UInt8 × List UInt8), ps.map readPair = pairs ∧
      (ps : Multiset (List UInt8 × List UInt8)) ≠ (pairs.map utf8Pair : List _) := by
  obtain ⟨pair, hpair, hrepl⟩ : ∃ pair ∈ pairs, '\uFFFD' ∈ pair.1.toList ∨ '\uFFFD' ∈ pair.2.toList := by
    by_contra hno
    refine h fun pair hpair => ?_
    constructor
    · exact fun hm => hno ⟨pair, hpair, Or.inl hm⟩
    · exact fun hm => hno ⟨pair, hpair, Or.inr hm⟩
  obtain ⟨a, b, rfl⟩ := List.append_of_mem hpair
  obtain ⟨p, hread, hlen⟩ := exists_shorter_pair hrepl
  refine ⟨a.map utf8Pair ++ p :: b.map utf8Pair, ?_, ?_⟩
  · simp [hread, Function.comp_def, readPair_utf8Pair]
  · intro hsame
    have hsum := congrArg (fun m => (m.map fun p : List UInt8 × List UInt8 => p.1.length + p.2.length).sum)
      hsame
    simp [utf8Pair] at hsum
    omega

/-- The canonical query has the bytes of the strings. -/
theorem data_canonical {q : Query} (hne : keptPairs q ≠ []) :
    data (Query.canonical (some q)) = ((keptPairs q).map utf8Pair : List (List UInt8 × List UInt8)) := by
  have hread : ((keptPairs q).map utf8Pair).map readPair = keptPairs q := by
    simp [Function.comp_def, readPair_utf8Pair]
  rw [canonical_eq, kept, if_neg hne, formSerialize_eq]
  exact data_serializeBytes (by simpa using hne) hread

/-- A query with a replacement character in it is merged with one of other bytes, which are not those
of the canonical one. -/
theorem exists_other {q : Option Query} (h : ¬ Unreplaced (kept q)) :
    ∃ r : Query, Query.canonical (some r) = Query.canonical q ∧ data (some r) ≠ data (Query.canonical q) := by
  obtain ⟨ps, hps, hne⟩ := exists_merged h
  cases q with
  | none => exact absurd (fun pair hpair => by cases hpair) h
  | some q =>
    have hkne : keptPairs q ≠ [] := by
      intro he
      rw [kept, he] at h
      exact h fun pair hpair => by cases hpair
    have hpne : ps ≠ [] := by
      rintro rfl
      exact hkne hps.symm
    have hkept : keptPairs (setQuery (serializeBytes ps)) = keptPairs q := by
      refine keptPairs_of_formParse ?_
      rw [setQuery_serializeBytes, formParse_eq, bytePairs_serializeBytes hpne]
      exact hps
    refine ⟨setQuery (serializeBytes ps), canonical_congr hkept, ?_⟩
    rw [data_serializeBytes hpne hps, data_canonical hkne]
    exact hne

end Url

open Url

variable {H : HostParser}

/-- The query of a URL is not merged with another one, and what is fetched asks for the same data. -/
structure Carries (u : HttpUrl H) : Prop where
  apart : ∀ u' : HttpUrl H, u'.https = u.https → u'.host = u.host → u'.port = u.port →
    u'.path = u.path → u'.canonicalize = u.canonicalize → data u'.query = data u.query
  same : data u.canonicalize.query = data u.query

/-- Exactly where U+FFFD is in no parameter that is kept. -/
theorem carries_iff (H : HostParser) (u : HttpUrl H) :
    Carries u ↔ ∀ p ∈ data u.query, '\uFFFD' ∉ utf8Lossy p.1 ∧ '\uFFFD' ∉ utf8Lossy p.2 := by
  rw [← unreplaced_kept_iff]
  constructor
  · intro h
    by_contra hrepl
    -- the other URL is `u` with the query `r`
    obtain ⟨r, hquery, hne⟩ := exists_other hrepl
    have hcanon : ({ u with query := some r } : HttpUrl H).canonicalize = u.canonicalize := by
      simp only [HttpUrl.canonicalize, hquery]
    have hother := h.apart { u with query := some r } rfl rfl rfl rfl hcanon
    exact hne (hother.trans h.same.symm)
  · intro h
    constructor
    · intro u' _ _ _ _ hcanon
      have hkept : kept u'.query = kept u.query := by
        have hquery : Query.canonical u'.query = Query.canonical u.query := congrArg HttpUrl.query hcanon
        rw [← kept_canonical, hquery, kept_canonical]
      rw [data_eq_of_unreplaced h, data_eq_of_unreplaced (hkept ▸ h), hkept]
    · have hkept : kept u.canonicalize.query = kept u.query := kept_canonical u.query
      rw [data_eq_of_unreplaced h, data_eq_of_unreplaced (hkept ▸ h), hkept]

/-- `https://a.test/?a=..` with given bytes as the value. -/
def valueUrl (value : List UInt8) : HttpUrl .names where
  https := true
  username := []
  password := none
  host := ['a', '.', 't', 'e', 's', 't']
  port := none
  path := setPath ['/']
  query := some (setQuery (serializeBytes [([0x61], value)]))
  fragment := none
  host_ok := nestedUrl.host_ok
  port_ok := nestedUrl.port_ok

/-- Where the value is read as U+FFFD. -/
theorem read_valueUrl {value : List UInt8} (h : utf8Lossy value = ['\uFFFD']) :
    [(([0x61] : List UInt8), value)].map readPair = [("a", "\uFFFD")] := by
  have hlossy : utf8Lossy [0x61] = ['a'] := utf8Lossy_utf8 "a"
  rw [List.map_singleton, readPair, readText, readText, hlossy, h]

theorem kept_valueUrl {value : List UInt8} (h : utf8Lossy value = ['\uFFFD']) :
    kept (valueUrl value).query = [("a", "\uFFFD")] := by
  have hkeep : [("a", "\uFFFD")].filter (fun pair => !isTrackingParam pair.1) = [("a", "\uFFFD")] := by
    decide
  rw [valueUrl, kept, keptPairs, setQuery_serializeBytes, formParse_eq, bytePairs_serializeBytes (by simp),
    read_valueUrl h, hkeep, List.mergeSort_singleton]

theorem data_valueUrl {value : List UInt8} (h : utf8Lossy value = ['\uFFFD']) :
    data (valueUrl value).query = {([0x61], value)} :=
  data_serializeBytes (q := setQuery (serializeBytes [([0x61], value)])) (by simp)
    ((read_valueUrl h).trans (kept_valueUrl h).symm)

/-- `?a=%FF` and `?a=%EF%BF%BD` are one canonical URL. -/
theorem not_carries : ¬ ∀ (H : HostParser) (u : HttpUrl H), Carries u := by
  intro h
  have hff : utf8Lossy [0xFF] = ['\uFFFD'] := by rw [utf8Lossy_ff, utf8Lossy]
  have hrepl : utf8Lossy [0xEF, 0xBF, 0xBD] = ['\uFFFD'] := utf8Lossy_utf8 "\uFFFD"
  have hquery := canonical_congr ((kept_valueUrl hff).trans (kept_valueUrl hrepl).symm)
  have hcanon : (valueUrl [0xFF]).canonicalize = (valueUrl [0xEF, 0xBF, 0xBD]).canonicalize := by
    simp only [HttpUrl.canonicalize, hquery]
    rfl
  have hdata := (h .names (valueUrl [0xEF, 0xBF, 0xBD])).apart (valueUrl [0xFF]) rfl rfl rfl rfl hcanon
  rw [data_valueUrl hff, data_valueUrl hrepl] at hdata
  exact absurd (Multiset.singleton_inj.1 hdata) (by decide)

end Crawlrs
