import Crawlrs.L1Data.Types
import Mathlib.Data.Prod.Lex
import Mathlib.Data.String.Basic

/-!
# The query step of `canonicalize`

`query_pairs` reads a query as `application/x-www-form-urlencoded`, the tracking
parameters are dropped, the rest is sorted and serialised again. Names and values
are read through a lossy UTF-8 decoder, so what is serialised need not be what was
read; what is read back from a serialised query is: `formParse_formSerialize`.

`Query.canonical_canonical`: a second round changes nothing.
-/
namespace Crawlrs.Url

/-! ## UTF-8 -/

/-- A second byte that can follow the first one of three or four. -/
def secondOk (b c : UInt8) : Bool :=
  let n := b.toNat
  let m := c.toNat
  if n == 0xE0 then decide (0xA0 ≤ m ∧ m ≤ 0xBF)
  else if n == 0xED then decide (0x80 ≤ m ∧ m ≤ 0x9F)
  else if n == 0xF0 then decide (0x90 ≤ m ∧ m ≤ 0xBF)
  else if n == 0xF4 then decide (0x80 ≤ m ∧ m ≤ 0x8F)
  else decide (0xE1 ≤ n ∧ n ≤ 0xF3) && decide (0x80 ≤ m ∧ m ≤ 0xBF)

/-- How much of an ill-formed sequence one replacement character stands for, after its first byte:
the longest start of a well-formed one. -/
def illFormedTail (b : UInt8) : List UInt8 → Nat
  | [] => 0
  | c :: rest =>
    if !secondOk b c then 0
    else match rest with
      | d :: _ => if decide (0xF0 ≤ b.toNat) && decide (0x80 ≤ d.toNat ∧ d.toNat ≤ 0xBF) then 2 else 1
      | [] => 1

/-- `String::from_utf8_lossy`. -/
def utf8Lossy : List UInt8 → List Char
  | [] => []
  | b :: rest =>
    match ((b :: rest).toByteArray).utf8DecodeChar? 0 with
    | some c => c :: utf8Lossy (rest.drop (c.utf8Size - 1))
    | none => '\uFFFD' :: utf8Lossy (rest.drop (illFormedTail b rest))
termination_by bs => bs.length
decreasing_by all_goals simp only [List.length_drop, List.length_cons]; omega

def utf8 (s : String) : List UInt8 := s.toList.flatMap String.utf8EncodeChar

theorem utf8Lossy_encode (c : Char) (rest : List UInt8) :
    utf8Lossy (String.utf8EncodeChar c ++ rest) = c :: utf8Lossy rest := by
  have hlen := String.length_utf8EncodeChar c
  have hpos := c.utf8Size_pos
  obtain ⟨b, bs, hb⟩ := List.exists_cons_of_ne_nil
    (List.ne_nil_of_length_pos (l := String.utf8EncodeChar c) (by omega))
  have hdec : ((b :: (bs ++ rest)).toByteArray).utf8DecodeChar? 0 = some c := by
    have h := ByteArray.utf8DecodeChar?_utf8EncodeChar_append (b := rest.toByteArray) (c := c)
    rwa [← List.toByteArray_append, hb] at h
  rw [hb] at hlen ⊢
  rw [List.cons_append, utf8Lossy, hdec]
  have hdrop : c.utf8Size - 1 = bs.length := by
    simp only [List.length_cons] at hlen
    omega
  simp only [hdrop, List.drop_left]

theorem utf8Lossy_utf8 (s : String) : utf8Lossy (utf8 s) = s.toList := by
  unfold utf8
  induction s.toList with
  | nil => rw [List.flatMap_nil, utf8Lossy]
  | cons c cs ih => rw [List.flatMap_cons, utf8Lossy_encode, ih]

theorem utf8_append (s t : String) : utf8 (s ++ t) = utf8 s ++ utf8 t := by
  simp [utf8, String.toList_append]

/-- A byte below 128 stands for itself only. -/
theorem toNat_of_mem_encode {c : Char} {b : UInt8} (h : b ∈ String.utf8EncodeChar c) (hb : b.toNat < 128) :
    b.toNat = c.toNat := by
  have hhigh : ∀ n, 128 ≤ n → n < 256 → b ≠ UInt8.ofNat n := by
    intro n hlow hlt he
    rw [he, UInt8.toNat_ofNat'] at hb
    omega
  unfold String.utf8EncodeChar at h
  dsimp only at h
  split at h
  · rw [List.mem_singleton] at h
    rw [h, UInt8.toNat_ofNat']
    show c.val.toNat % 2 ^ 8 = c.val.toNat
    omega
  · exfalso
    split at h
    · rcases List.mem_pair.1 h with h | h <;> exact hhigh _ (by omega) (by omega) h
    · split at h <;> simp only [List.mem_cons, List.not_mem_nil, or_false] at h
      · rcases h with h | h | h <;> exact hhigh _ (by omega) (by omega) h
      · rcases h with h | h | h | h <;> exact hhigh _ (by omega) (by omega) h

theorem char_mem_of_mem_utf8 {c : Char} {s : String} (hc : c.toNat < 128)
    (h : UInt8.ofNat c.toNat ∈ utf8 s) : c ∈ s.toList := by
  obtain ⟨d, hd, hmem⟩ := List.mem_flatMap.1 h
  have hbyte : (UInt8.ofNat c.toNat).toNat = c.toNat := by
    rw [UInt8.toNat_ofNat']
    omega
  have hsame := toNat_of_mem_encode hmem (by omega)
  rw [hbyte] at hsame
  rwa [show c = d from Char.ext (UInt32.toNat_inj.1 hsame)]

/-! ## `application/x-www-form-urlencoded` -/

def hexValue (b : UInt8) : Option Nat :=
  let n := b.toNat
  if 0x30 ≤ n ∧ n ≤ 0x39 then some (n - 0x30)
  else if 0x61 ≤ n ∧ n ≤ 0x66 then some (n - 0x61 + 10)
  else if 0x41 ≤ n ∧ n ≤ 0x46 then some (n - 0x41 + 10)
  else none

def percentDecode : List UInt8 → List UInt8
  | [] => []
  | [b] => [b]
  | [b, c] => [b, c]
  | b :: h :: l :: rest =>
    match b == 0x25, hexValue h, hexValue l with
    | true, some hi, some lo => UInt8.ofNat (hi * 16 + lo) :: percentDecode rest
    | _, _, _ => b :: percentDecode (h :: l :: rest)

/-- Letters, digits, `*`, `-`, `.` and `_`. -/
def byteSerializedUnchanged (b : UInt8) : Bool :=
  [0x2A, 0x2D, 0x2E, 0x5F].contains b.toNat || decide (0x30 ≤ b.toNat ∧ b.toNat ≤ 0x39) ||
    decide (0x41 ≤ b.toNat ∧ b.toNat ≤ 0x5A) || decide (0x61 ≤ b.toNat ∧ b.toNat ≤ 0x7A)

def hexByte (d : Nat) : UInt8 := if d < 10 then UInt8.ofNat (0x30 + d) else UInt8.ofNat (0x37 + d)

def percentEncodedByte (b : UInt8) : List UInt8 := [0x25, hexByte (b.toNat / 16), hexByte (b.toNat % 16)]

def byteSerialize (b : UInt8) : List UInt8 :=
  if byteSerializedUnchanged b then [b] else if b == 0x20 then [0x2B] else percentEncodedByte b

def replacePlus (b : UInt8) : UInt8 := if b == 0x2B then 0x20 else b

/-- One name or value. -/
def formDecode (bytes : List UInt8) : String :=
  String.ofList (utf8Lossy (percentDecode (bytes.map replacePlus)))

def formEncode (s : String) : List UInt8 := (utf8 s).flatMap byteSerialize

/-- `Url::query_pairs`: the sequences between `&`, the empty ones skipped, each split at its
first `=`. -/
def formParse (query : List UInt8) : List (String × String) :=
  ((query.splitOn 0x26).filter fun seq => !seq.isEmpty).map fun seq =>
    (formDecode (seq.takeWhile (· != 0x3D)), formDecode ((seq.dropWhile (· != 0x3D)).drop 1))

/-- `Serializer::append_pair`. -/
def formPair (pair : String × String) : List UInt8 := formEncode pair.1 ++ 0x3D :: formEncode pair.2

def formSerialize (pairs : List (String × String)) : List UInt8 := [0x26].intercalate (pairs.map formPair)

theorem hexValue_hexByte {d : Nat} (h : d < 16) : hexValue (hexByte d) = some d := by
  decide +revert

theorem replacePlus_hexByte {d : Nat} (h : d < 16) : replacePlus (hexByte d) = hexByte d := by
  decide +revert

theorem percentDecode_of_ne {b : UInt8} (h : b ≠ 0x25) (rest : List UInt8) :
    percentDecode (b :: rest) = b :: percentDecode rest := by
  match rest with
  | [] => rfl
  | [c] => rfl
  | c :: d :: rest =>
    have hb : (b == 0x25) = false := by simpa using h
    simp [percentDecode, hb]

/-- A byte is read back from its serialisation. -/
theorem percentDecode_byteSerialize (b : UInt8) (rest : List UInt8) :
    percentDecode ((byteSerialize b).map replacePlus ++ rest) = b :: percentDecode rest := by
  have hlt := b.toNat_lt
  unfold byteSerialize
  split
  · rename_i hun
    have hplus : replacePlus b = b := by
      unfold replacePlus
      split
      · rename_i hb
        rw [eq_of_beq hb] at hun
        exact absurd hun (by decide)
      · rfl
    have hpercent : b ≠ 0x25 := by
      rintro rfl
      exact absurd hun (by decide)
    rw [List.map_singleton, hplus, List.singleton_append, percentDecode_of_ne hpercent]
  · split
    · rename_i hb
      rw [eq_of_beq hb]
      exact percentDecode_of_ne (by decide) rest
    · have hhi : b.toNat / 16 < 16 := by omega
      have hlo : b.toNat % 16 < 16 := by omega
      have hpercent : replacePlus 0x25 = 0x25 := by decide
      have hbyte : UInt8.ofNat (b.toNat / 16 * 16 + b.toNat % 16) = b := by
        rw [Nat.div_add_mod' b.toNat 16, UInt8.ofNat_toNat]
      simp only [percentEncodedByte, List.map_cons, List.map_nil, hpercent, replacePlus_hexByte hhi,
        replacePlus_hexByte hlo, List.cons_append, List.nil_append, percentDecode, beq_self_eq_true,
        hexValue_hexByte hhi, hexValue_hexByte hlo, hbyte]

/-- So are the bytes of a name or value. -/
theorem percentDecode_flatMap (bs : List UInt8) :
    percentDecode ((bs.flatMap byteSerialize).map replacePlus) = bs := by
  induction bs with
  | nil => rfl
  | cons b bs ih => rw [List.flatMap_cons, List.map_append, percentDecode_byteSerialize, ih]

theorem formDecode_formEncode (s : String) : formDecode (formEncode s) = s := by
  rw [formDecode, formEncode, percentDecode_flatMap, utf8Lossy_utf8, String.ofList_toList]

/-- The bytes of a serialised name or value. -/
def FormByte (b : UInt8) : Prop := byteSerializedUnchanged b = true ∨ b = 0x2B ∨ b = 0x25

theorem hexByte_unchanged {d : Nat} (h : d < 16) : byteSerializedUnchanged (hexByte d) = true := by
  decide +revert

theorem mem_byteSerialize {bs : List UInt8} {b : UInt8} (h : b ∈ bs.flatMap byteSerialize) :
    FormByte b := by
  obtain ⟨c, -, hb⟩ := List.mem_flatMap.1 h
  have hlt := c.toNat_lt
  unfold byteSerialize at hb
  split at hb
  · rename_i hun
    rw [List.mem_singleton.1 hb]
    exact Or.inl hun
  · split at hb
    · exact Or.inr (Or.inl (List.mem_singleton.1 hb))
    · simp only [percentEncodedByte, List.mem_cons, List.not_mem_nil, or_false] at hb
      rcases hb with rfl | rfl | rfl
      · exact Or.inr (Or.inr rfl)
      · exact Or.inl (hexByte_unchanged (by omega))
      · exact Or.inl (hexByte_unchanged (by omega))

theorem mem_formEncode {s : String} {b : UInt8} (h : b ∈ formEncode s) : FormByte b :=
  mem_byteSerialize h

theorem FormByte.ne {b c : UInt8} (h : FormByte b) (hc : byteSerializedUnchanged c = false ∧ c ≠ 0x2B ∧ c ≠ 0x25) :
    b ≠ c := by
  rintro rfl
  rcases h with h | h | h
  · rw [hc.1] at h
    cases h
  · exact hc.2.1 h
  · exact hc.2.2 h

/-- Sequences with an ampersand between them are read back. -/
theorem splitOn_intercalate_amp {segs : List (List UInt8)} (hne : segs ≠ [])
    (h : ∀ seq ∈ segs, seq ≠ [] ∧ ∀ b ∈ seq, FormByte b ∨ b = 0x3D) :
    (([0x26].intercalate segs).splitOn 0x26).filter (fun seq => !seq.isEmpty) = segs := by
  have hsplit : ([0x26].intercalate segs).splitOn 0x26 = segs := by
    refine List.splitOn_intercalate _ ?_ hne
    intro seq hseq hamp
    rcases (h seq hseq).2 _ hamp with hb | hb
    · exact hb.ne (by decide) rfl
    · cases hb
  rw [hsplit, List.filter_eq_self]
  intro seq hseq
  simpa using (h seq hseq).1

/-- A name and its value are cut at the first equals sign. -/
theorem cut_equals {name : List UInt8} (h : ∀ b ∈ name, FormByte b) (value : List UInt8) :
    (name ++ 0x3D :: value).takeWhile (· != 0x3D) = name ∧
      ((name ++ 0x3D :: value).dropWhile (· != 0x3D)).drop 1 = value := by
  have heq : ∀ b ∈ name, (b != 0x3D) = true := fun b hb => by
    simpa using (h b hb).ne (c := 0x3D) (by decide)
  rw [List.takeWhile_append_of_pos heq, List.dropWhile_append_of_pos heq]
  simp

theorem mem_formPair {pair : String × String} {b : UInt8} (h : b ∈ formPair pair) :
    FormByte b ∨ b = 0x3D := by
  rcases List.mem_append.1 h with h | h
  · exact Or.inl (mem_formEncode h)
  · rcases List.mem_cons.1 h with h | h
    · exact Or.inr h
    · exact Or.inl (mem_formEncode h)

/-- What is serialised is read back. -/
theorem formParse_formSerialize {pairs : List (String × String)} (hne : pairs ≠ []) :
    formParse (formSerialize pairs) = pairs := by
  rw [formParse, formSerialize, splitOn_intercalate_amp (by simpa using hne), List.map_map]
  · refine (List.map_congr_left (g := id) fun pair _ => ?_).trans (List.map_id pairs)
    obtain ⟨hname, hvalue⟩ := cut_equals (fun b hb => mem_formEncode (s := pair.1) hb) (formEncode pair.2)
    simp only [Function.comp_apply, formPair, hname, hvalue, formDecode_formEncode, id]
  · intro seq hseq
    obtain ⟨pair, -, rfl⟩ := List.mem_map.1 hseq
    exact ⟨by simp [formPair], fun b hb => mem_formPair hb⟩

/-! ## The canonical query -/

/-- Controls and everything that is not ASCII; space, double quote, `#`, `<`, `>` and the single
quote. -/
def specialQueryPercentEncodeSet (b : UInt8) : Bool :=
  decide (b.toNat ≤ 0x1F) || decide (0x7E < b.toNat) ||
    [0x20, 0x22, 0x23, 0x27, 0x3C, 0x3E].contains b.toNat

/-- A query as the parser leaves it. -/
structure Query where
  bytes : List UInt8
  encoded : ∀ b ∈ bytes, specialQueryPercentEncodeSet b = false

theorem Query.ext {q r : Query} (h : q.bytes = r.bytes) : q = r := by
  cases q
  cases r
  cases h
  rfl

def encodeQueryByte (b : UInt8) : List UInt8 :=
  if specialQueryPercentEncodeSet b then percentEncodedByte b else [b]

theorem hexByte_not_encoded {d : Nat} (h : d < 16) : specialQueryPercentEncodeSet (hexByte d) = false := by
  decide +revert

theorem encodeQueryByte_encoded (b : UInt8) :
    ∀ c ∈ encodeQueryByte b, specialQueryPercentEncodeSet c = false := by
  have hlt := b.toNat_lt
  intro c hc
  unfold encodeQueryByte at hc
  split at hc
  · simp only [percentEncodedByte, List.mem_cons, List.not_mem_nil, or_false] at hc
    rcases hc with rfl | rfl | rfl
    · decide
    · exact hexByte_not_encoded (by omega)
    · exact hexByte_not_encoded (by omega)
  · rename_i hset
    rw [List.mem_singleton.1 hc]
    simpa using hset

/-- `Url::set_query(Some(..))` on an `http(s)` URL. -/
def setQuery (text : List UInt8) : Query where
  bytes := (text.filter fun b => !(b == 0x09 || b == 0x0A || b == 0x0D)).flatMap encodeQueryByte
  encoded c hc := by
    obtain ⟨b, -, hc⟩ := List.mem_flatMap.1 hc
    exact encodeQueryByte_encoded b c hc

/-- mirrors crates/crawlrs-core/src/url.rs:239-244 -/
def isTrackingParam (name : String) : Bool :=
  ['u', 't', 'm', '_'].isPrefixOf name.toList || ["gclid", "fbclid", "ref", "ref_src"].contains name

def pairLe (a b : String × String) : Bool := decide (toLex a ≤ toLex b)

/-- mirrors crates/crawlrs-core/src/url.rs:184-190 -/
def keptPairs (q : Query) : List (String × String) :=
  ((formParse q.bytes).filter fun pair => !isTrackingParam pair.1).mergeSort pairLe

/-- mirrors crates/crawlrs-core/src/url.rs:183-201 -/
def Query.canonical : Option Query → Option Query
  | none => none
  | some q => if keptPairs q = [] then none else some (setQuery (formSerialize (keptPairs q)))

theorem formByte_not_encoded {b : UInt8} (h : FormByte b ∨ b = 0x26 ∨ b = 0x3D) :
    specialQueryPercentEncodeSet b = false := by
  rcases h with (h | rfl | rfl) | rfl | rfl
  · simp only [byteSerializedUnchanged, Bool.or_eq_true, decide_eq_true_eq, List.contains_eq_mem,
      List.mem_cons, List.not_mem_nil, or_false] at h
    simp only [specialQueryPercentEncodeSet, Bool.or_eq_false_iff, decide_eq_false_iff_not,
      List.contains_eq_mem, List.mem_cons, List.not_mem_nil, or_false]
    omega
  all_goals decide

theorem mem_intercalate_amp {segs : List (List UInt8)}
    (hsegs : ∀ seq ∈ segs, ∀ b ∈ seq, FormByte b ∨ b = 0x3D) {b : UInt8}
    (h : b ∈ [0x26].intercalate segs) : FormByte b ∨ b = 0x26 ∨ b = 0x3D := by
  induction segs with
  | nil => cases h
  | cons seq rest ih =>
    have hseq : b ∈ seq → FormByte b ∨ b = 0x26 ∨ b = 0x3D := fun hb =>
      (hsegs seq List.mem_cons_self b hb).imp_right Or.inr
    by_cases hr : rest = []
    · subst hr
      rw [List.intercalate_singleton] at h
      exact hseq h
    · rw [List.intercalate_cons_of_ne_nil hr, List.append_assoc, List.mem_append, List.mem_append,
        List.mem_singleton] at h
      rcases h with h | h | h
      · exact hseq h
      · exact Or.inr (Or.inl h)
      · exact ih (fun seq hseq => hsegs seq (List.mem_cons_of_mem _ hseq)) h

theorem mem_formSerialize {pairs : List (String × String)} {b : UInt8}
    (h : b ∈ formSerialize pairs) : FormByte b ∨ b = 0x26 ∨ b = 0x3D := by
  refine mem_intercalate_amp ?_ h
  intro seq hseq b hb
  obtain ⟨pair, -, rfl⟩ := List.mem_map.1 hseq
  exact mem_formPair hb

/-- A text with nothing to encode is taken as it is. -/
theorem setQuery_bytes {text : List UInt8}
    (h : ∀ b ∈ text, specialQueryPercentEncodeSet b = false) : (setQuery text).bytes = text := by
  have hkeep : text.filter (fun b => !(b == 0x09 || b == 0x0A || b == 0x0D)) = text := by
    rw [List.filter_eq_self]
    intro b hb
    have hb := h b hb
    refine Bool.not_eq_true' _ ▸ ?_
    simp only [Bool.or_eq_false_iff, beq_eq_false_iff_ne]
    refine ⟨⟨?_, ?_⟩, ?_⟩ <;> rintro rfl <;> exact absurd hb (by decide)
  have hbyte : ∀ b ∈ text, encodeQueryByte b = [b] := fun b hb => by
    simp [encodeQueryByte, h b hb]
  simp only [setQuery, hkeep]
  rw [List.flatMap_congr hbyte, List.flatMap_singleton']

theorem setQuery_formSerialize (pairs : List (String × String)) :
    (setQuery (formSerialize pairs)).bytes = formSerialize pairs :=
  setQuery_bytes fun _ hb => formByte_not_encoded (mem_formSerialize hb)

theorem pairwise_mergeSort_pairLe (pairs : List (String × String)) :
    (pairs.mergeSort pairLe).Pairwise fun a b => pairLe a b = true := by
  refine List.pairwise_mergeSort (fun a b c hab hbc => ?_) (fun a b => ?_) _
  · exact decide_eq_true (le_trans (of_decide_eq_true hab) (of_decide_eq_true hbc))
  · simpa [pairLe] using le_total (toLex a) (toLex b)

/-- A query that reads as the kept pairs of another keeps these. -/
theorem keptPairs_of_formParse {q r : Query} (h : formParse r.bytes = keptPairs q) :
    keptPairs r = keptPairs q := by
  have hkept : (keptPairs q).filter (fun pair => !isTrackingParam pair.1) = keptPairs q := by
    rw [List.filter_eq_self]
    intro pair hpair
    exact (List.mem_filter.1 (List.mem_mergeSort.1 hpair)).2
  rw [keptPairs, h, hkept]
  exact List.mergeSort_of_pairwise (pairwise_mergeSort_pairLe _)

theorem keptPairs_formSerialize {q : Query} (hne : keptPairs q ≠ []) :
    keptPairs (setQuery (formSerialize (keptPairs q))) = keptPairs q := by
  refine keptPairs_of_formParse ?_
  rw [setQuery_formSerialize, formParse_formSerialize hne]

/-- A second round changes nothing. -/
theorem Query.canonical_canonical (q : Option Query) :
    Query.canonical (Query.canonical q) = Query.canonical q := by
  cases q with
  | none => rfl
  | some q =>
    by_cases hne : keptPairs q = []
    · simp [Query.canonical, hne]
    · simp [Query.canonical, hne, keptPairs_formSerialize hne]

end Crawlrs.Url
