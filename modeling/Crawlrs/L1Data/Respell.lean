import Crawlrs.L1Data.CanonicalPath

/-!
# Paths that are spelled differently

`Respell s s'`: some characters of `s` that are unreserved, and not in a
percent-encoded triplet of it, are written as triplets in `s'`. Decoding does not see
the difference (`Respell.decode`), and the canonical path of a text depends on its
decoded segments only (`canonical_setPath_congr`): also where it has dot segments,
which are found by their decoding.
-/
namespace Crawlrs.Url

/-! ## Spelling -/

def isHex (c : Char) : Bool := (hexDigit c).isSome

/-- The text starts with a percent-encoded triplet. -/
def startsTriplet : List Char → Bool
  | '%' :: a :: b :: _ => isHex a && isHex b
  | _ => false

/-- Triplets and other characters are read from left to right; the former are kept. -/
inductive Respell : List Char → List Char → Prop
  | nil : Respell [] []
  | triplet {a b : Char} {s s' : List Char} : isHex a = true → isHex b = true → Respell s s' →
      Respell ('%' :: a :: b :: s) ('%' :: a :: b :: s')
  | char {c : Char} {s s' : List Char} : startsTriplet (c :: s) = false → Respell s s' →
      Respell (c :: s) (c :: s')
  | octet {a b c : Char} {s s' : List Char} : octet a b = some c → Respell s s' →
      Respell (c :: s) ('%' :: a :: b :: s')

theorem Respell.refl (s : List Char) : Respell s s := by
  induction h : s.length using Nat.strongRecOn generalizing s with
  | ind n ih =>
    cases s with
    | nil => exact .nil
    | cons c s =>
      cases ht : startsTriplet (c :: s) with
      | false => exact .char ht (ih _ (by rw [← h]; simp) s rfl)
      | true =>
        unfold startsTriplet at ht
        split at ht
        · rename_i a b s' he
          cases he
          obtain ⟨ha, hb⟩ := Bool.and_eq_true_iff.1 ht
          exact .triplet ha hb (ih _ (by rw [← h]; simp only [List.length_cons]; omega) s' rfl)
        · cases ht

theorem startsTriplet_of_ne {c : Char} {s : List Char} (h : c ≠ '%') : startsTriplet (c :: s) = false := by
  unfold startsTriplet
  split
  · rename_i he
    cases he
    exact absurd rfl h
  · rfl

theorem isHex_ne_percent {c : Char} (h : isHex c = true) : c ≠ '%' := by
  rintro rfl
  exact absurd h (by decide)

theorem isHex_of_octet {a b c : Char} (h : octet a b = some c) : isHex a = true ∧ isHex b = true := by
  obtain ⟨⟨m, ha⟩, ⟨n, hb⟩, -⟩ := octet_digits h
  exact ⟨by simp [isHex, ha], by simp [isHex, hb]⟩

/-- A text starts with an octet only if it starts with a triplet. -/
theorem startsOctet_of_not_triplet {s : List Char} (h : startsTriplet s = false) : startsOctet s = false := by
  unfold startsOctet
  split
  · rename_i a b rest
    cases ho : octet a b with
    | none => rfl
    | some c =>
      obtain ⟨ha, hb⟩ := isHex_of_octet ho
      simp [startsTriplet, ha, hb] at h
  · rfl

/-- A character that is not `%` was there. -/
theorem Respell.head {s t : List Char} {x : Char} (h : Respell s (x :: t)) (hx : x ≠ '%') :
    ∃ s', s = x :: s' ∧ Respell s' t := by
  cases h with
  | triplet ha hb h => exact absurd rfl hx
  | char ht h => exact ⟨_, rfl, h⟩
  | octet ho h => exact absurd rfl hx

/-- No triplet arises. -/
theorem Respell.startsTriplet {c : Char} {s s' : List Char} (h : Respell s s')
    (hs : startsTriplet (c :: s) = false) : startsTriplet (c :: s') = false := by
  by_contra htrue
  rw [Bool.not_eq_false] at htrue
  unfold Url.startsTriplet at htrue
  split at htrue
  · rename_i a b rest he
    cases he
    obtain ⟨ha, hb⟩ := Bool.and_eq_true_iff.1 htrue
    obtain ⟨s₁, rfl, h₁⟩ := h.head (isHex_ne_percent ha)
    obtain ⟨s₂, rfl, h₂⟩ := h₁.head (isHex_ne_percent hb)
    simp [Url.startsTriplet, ha, hb] at hs
  · cases htrue

/-- Decoding does not see the difference. -/
theorem Respell.decode {s s' : List Char} (h : Respell s s') :
    decodeUnreservedPercentOctets s = decodeUnreservedPercentOctets s' := by
  induction h with
  | nil => rfl
  | @triplet a b s s' ha hb h ih =>
    cases ho : Url.octet a b with
    | some c => rw [decode_octet ho, decode_octet ho, ih]
    | none =>
      have hplain : ∀ t, startsOctet ('%' :: a :: b :: t) = false := fun t => by simp [startsOctet, ho]
      have hdigit : ∀ {d : Char} (t : List Char), isHex d = true →
          decodeUnreservedPercentOctets (d :: t) = d :: decodeUnreservedPercentOctets t :=
        fun t hd => decode_plain (startsOctet_of_ne (isHex_ne_percent hd))
      rw [decode_plain (hplain s), decode_plain (hplain s'), hdigit _ ha, hdigit _ ha, hdigit _ hb,
        hdigit _ hb, ih]
  | char ht h ih =>
    rw [decode_plain (startsOctet_of_not_triplet ht),
      decode_plain (startsOctet_of_not_triplet (h.startsTriplet ht)), ih]
  | @octet a b c s s' ho h ih =>
    rw [decode_plain (startsOctet_of_ne (octet_ne_percent ho).2.2), decode_octet ho, ih]

/-! ## Encoding -/

/-- A character of the text as the path has it. -/
def writePathChar (c : Char) : List Char := if isSlash c then ['/'] else encodePathChar c

theorem isHex_upperHex {d : Nat} (h : d < 16) : isHex (upperHex d) = true := by
  decide +revert

theorem toNat_of_isHex {c : Char} (h : isHex c = true) : c.toNat < 128 := by
  unfold isHex hexDigit at h
  split at h
  · rename_i hc
    have hle : c.toNat ≤ 57 := hc.2
    omega
  · split at h
    · rename_i hc
      have hle : c.toNat ≤ 102 := hc.2
      omega
    · split at h
      · rename_i hc
        have hle : c.toNat ≤ 70 := hc.2
        omega
      · cases h

/-- What holds of the 22 hex digits. -/
theorem isHex_all {P : Char → Prop} (hall : ∀ n < 128, isHex (Char.ofNat n) = true → P (Char.ofNat n))
    {c : Char} (h : isHex c = true) : P c := by
  have hc := hall c.toNat (toNat_of_isHex h)
  rw [Char.ofNat_toNat] at hc
  exact hc h

theorem writePathChar_of_isHex {c : Char} (h : isHex c = true) : writePathChar c = [c] := by
  have hpath : pathPercentEncodeSet c = false ∧ isSlash c = false :=
    isHex_all (P := fun c => pathPercentEncodeSet c = false ∧ isSlash c = false) (by decide +kernel) h
  simp [writePathChar, hpath.2, encodePathChar_of_pathChar hpath]

theorem writePathChar_percent : writePathChar '%' = ['%'] := by decide

/-- What is written starts with the character itself, a slash or a triplet. -/
theorem writePathChar_cases (c : Char) : writePathChar c = [c] ∨ writePathChar c = ['/'] ∨
    ∃ bs : List UInt8, bs ≠ [] ∧ writePathChar c = bs.flatMap percentEncodeByte := by
  unfold writePathChar
  split
  · exact Or.inr (Or.inl rfl)
  · unfold encodePathChar
    split
    · refine Or.inr (Or.inr ⟨String.utf8EncodeChar c, ?_, rfl⟩)
      refine List.ne_nil_of_length_pos ?_
      rw [String.length_utf8EncodeChar]
      exact c.utf8Size_pos
    · exact Or.inl rfl

theorem percentEncodeByte_respell (b : UInt8) {s s' : List Char} (h : Respell s s') :
    Respell (percentEncodeByte b ++ s) (percentEncodeByte b ++ s') := by
  have hb := b.toNat_lt
  exact .triplet (isHex_upperHex (by omega)) (isHex_upperHex (by omega)) h

theorem percentEncode_respell (bs : List UInt8) {s s' : List Char} (h : Respell s s') :
    Respell (bs.flatMap percentEncodeByte ++ s) (bs.flatMap percentEncodeByte ++ s') := by
  induction bs with
  | nil => exact h
  | cons b bs ih =>
    rw [List.flatMap_cons, List.append_assoc, List.append_assoc]
    exact percentEncodeByte_respell b ih

/-- A hex digit at the start of what was written was at the start of the text. -/
theorem write_head {s t : List Char} {x : Char} (h : s.flatMap writePathChar = x :: t)
    (hx : isHex x = true) : ∃ s', s = x :: s' ∧ s'.flatMap writePathChar = t := by
  cases s with
  | nil => cases h
  | cons c s =>
    rw [List.flatMap_cons] at h
    rcases writePathChar_cases c with hc | hc | ⟨bs, hne, hc⟩
    · rw [hc, List.singleton_append, List.cons.injEq] at h
      obtain ⟨rfl, rfl⟩ := h
      exact ⟨s, rfl, rfl⟩
    · rw [hc] at h
      cases h
      exact absurd hx (by decide)
    · obtain ⟨b, bs, rfl⟩ := List.exists_cons_of_ne_nil hne
      rw [hc] at h
      cases h
      exact absurd hx (by decide)

/-- A percent sign that starts no triplet of the text starts none of what is written. -/
theorem startsTriplet_write {s : List Char} (h : startsTriplet ('%' :: s) = false) :
    startsTriplet ('%' :: s.flatMap writePathChar) = false := by
  by_contra htrue
  rw [Bool.not_eq_false] at htrue
  unfold startsTriplet at htrue
  split at htrue
  · rename_i a b rest he
    obtain ⟨ha, hb⟩ := Bool.and_eq_true_iff.1 htrue
    obtain ⟨s₁, rfl, h₁⟩ := write_head (List.cons.inj he).2 ha
    obtain ⟨s₂, rfl, -⟩ := write_head h₁ hb
    simp [startsTriplet, ha, hb] at h
  · cases htrue

theorem writePathChar_of_unreserved {c : Char} (h : isRfc3986Unreserved c = true) :
    writePathChar c = [c] := by
  have hpath := isUnreserved_pathChar h
  simp [writePathChar, hpath.2, encodePathChar_of_pathChar hpath]

theorem Respell.write {s s' : List Char} (h : Respell s s') :
    Respell (s.flatMap writePathChar) (s'.flatMap writePathChar) := by
  induction h with
  | nil => exact .nil
  | @triplet a b s s' ha hb h ih =>
    simp only [List.flatMap_cons, writePathChar_percent, writePathChar_of_isHex ha,
      writePathChar_of_isHex hb]
    exact .triplet ha hb ih
  | @char c s s' ht h ih =>
    rw [List.flatMap_cons, List.flatMap_cons]
    rcases writePathChar_cases c with hc | hc | ⟨bs, -, hc⟩
    · rw [hc]
      refine .char ?_ ih
      by_cases hpercent : c = '%'
      · subst hpercent
        exact startsTriplet_write ht
      · exact startsTriplet_of_ne hpercent
    · rw [hc]
      exact .char (startsTriplet_of_ne (by decide)) ih
    · rw [hc]
      exact percentEncode_respell bs ih
  | @octet a b c s s' ho h ih =>
    obtain ⟨ha, hb⟩ := isHex_of_octet ho
    simp only [List.flatMap_cons, writePathChar_percent, writePathChar_of_isHex ha,
      writePathChar_of_isHex hb, writePathChar_of_unreserved (octet_digits ho).2.2]
    exact .octet ho ih

/-! ## Segments -/

/-- The segments of a text, without those that start with a slash. -/
def cutSegments (text : List Char) : List Segment :=
  (text.splitOnP isSlash).map fun s => s.flatMap encodePathChar

theorem joinTail_cutSegments (text : List Char) :
    joinTail (cutSegments text) = text.flatMap writePathChar := by
  induction text with
  | nil => rfl
  | cons c text ih =>
    have hne : cutSegments text ≠ [] := by simp [cutSegments, List.splitOnP_ne_nil]
    unfold cutSegments at ih hne ⊢
    rw [List.splitOnP_cons_eq_if_modifyHead, List.flatMap_cons, ← ih]
    cases hc : isSlash c with
    | true =>
      simp only [if_true, List.map_cons, List.flatMap_nil]
      rw [joinTail_cons _ hne]
      simp [writePathChar, hc]
    | false =>
      simp only [Bool.false_eq_true, if_false]
      cases hsplit : text.splitOnP isSlash with
      | nil => exact absurd hsplit (List.splitOnP_ne_nil _ _)
      | cons t ts =>
        rw [List.modifyHead_cons, List.map_cons, List.map_cons, List.flatMap_cons]
        by_cases hts : ts = []
        · subst hts
          simp [writePathChar, hc]
        · rw [joinTail_cons _ (by simpa using hts), joinTail_cons _ (by simpa using hts)]
          simp [writePathChar, hc]

theorem cutSegments_chars (text : List Char) : ∀ s ∈ cutSegments text, ∀ c ∈ s, PathChar c := by
  intro s hs c hc
  obtain ⟨t, ht, rfl⟩ := List.mem_map.1 hs
  obtain ⟨d, hd, hc⟩ := List.mem_flatMap.1 hc
  exact encodePathChar_pathChar (mem_splitOnP ht d hd) c hc

/-- The decoded segments are found in the decoded text. -/
theorem decoded_cutSegments (text : List Char) :
    (cutSegments text).map decodeUnreservedPercentOctets =
      (decodeUnreservedPercentOctets (text.flatMap writePathChar)).splitOnP isSlash := by
  rw [← joinTail_cutSegments, decode_joinTail]
  refine (splitOnP_joinTail (by simp [cutSegments, List.splitOnP_ne_nil]) ?_).symm
  intro s hs
  obtain ⟨t, ht, rfl⟩ := List.mem_map.1 hs
  exact decode_pathChar (cutSegments_chars text t ht)

theorem Respell.segments {s s' : List Char} (h : Respell s s') :
    (cutSegments s).map decodeUnreservedPercentOctets =
      (cutSegments s').map decodeUnreservedPercentOctets := by
  rw [decoded_cutSegments, decoded_cutSegments, h.write.decode]

/-- Without a slash at the start. -/
def dropSlash : List Char → List Char
  | c :: rest => if isSlash c then rest else c :: rest
  | [] => []

theorem Respell.dropSlash {s s' : List Char} (h : Respell s s') : Respell (dropSlash s) (dropSlash s') := by
  have hpercent : ∀ t, Url.dropSlash ('%' :: t) = '%' :: t := fun t => rfl
  cases h with
  | nil => exact .nil
  | triplet ha hb h =>
    rw [hpercent, hpercent]
    exact .triplet ha hb h
  | @char c s s' ht h =>
    cases hc : isSlash c with
    | true => simpa [Url.dropSlash, hc] using h
    | false => simpa [Url.dropSlash, hc] using Respell.char ht h
  | @octet a b c s s' ho h =>
    have hc : isSlash c = false := (isUnreserved_pathChar (octet_digits ho).2.2).2
    rw [hpercent]
    simpa [Url.dropSlash, hc] using Respell.octet ho h

/-- The characters a URL has lost before it is cut. -/
def isTabOrNewline (c : Char) : Bool := c == '\t' || c == '\n' || c == '\r'

theorem readSegments_eq {text : List Char} (h : ∀ c ∈ text, isTabOrNewline c = false) :
    readSegments text = cutSegments (dropSlash text) := by
  have hkeep : text.filter (fun c => !(c == '\t' || c == '\n' || c == '\r')) = text := by
    rw [List.filter_eq_self]
    intro c hc
    have := h c hc
    simpa [isTabOrNewline] using this
  unfold readSegments
  simp only [hkeep]
  cases text <;> rfl

/-! ## Dot segments by their decoding -/

theorem hexDigit_lt {c : Char} {n : Nat} (h : hexDigit c = some n) : n < 16 := by
  have hhex : isHex c = true := by simp [isHex, h]
  have hall : (hexDigit c).all (· < 16) = true :=
    isHex_all (P := fun c => (hexDigit c).all (· < 16) = true) (by decide +kernel) hhex
  simpa [h] using hall

theorem spells_dot {e : List Char} (h : Spells e '.') :
    e = ['.'] ∨ e = ['%', '2', 'e'] ∨ e = ['%', '2', 'E'] := by
  rcases h with rfl | ⟨a, b, rfl, ho⟩
  · exact Or.inl rfl
  · obtain ⟨ha, hb⟩ := isHex_of_octet ho
    obtain ⟨hi, hhi⟩ := Option.isSome_iff_exists.1 ha
    obtain ⟨lo, hlo⟩ := Option.isSome_iff_exists.1 hb
    have hdigits : hi = 2 ∧ lo = 14 := by
      have hall : ∀ m < 16, ∀ n < 16, Char.ofNat (m * 16 + n) = '.' → m = 2 ∧ n = 14 := by decide +kernel
      refine hall hi (hexDigit_lt hhi) lo (hexDigit_lt hlo) ?_
      simp only [octet, hhi, hlo] at ho
      split at ho
      · exact Option.some.inj ho
      · cases ho
    obtain ⟨rfl, rfl⟩ := hdigits
    have htwo : a = '2' := isHex_all (P := fun c => hexDigit c = some 2 → c = '2') (by decide +kernel) ha hhi
    have he : b = 'e' ∨ b = 'E' :=
      isHex_all (P := fun c => hexDigit c = some 14 → c = 'e' ∨ c = 'E') (by decide +kernel) hb hlo
    rw [htwo]
    rcases he with rfl | rfl
    · exact Or.inr (Or.inl rfl)
    · exact Or.inr (Or.inr rfl)

theorem isSingleDot_iff (s : Segment) : isSingleDot s = true ↔ decodeUnreservedPercentOctets s = ['.'] := by
  constructor
  · intro h
    simp only [isSingleDot, List.contains_iff_mem, List.mem_cons, List.not_mem_nil, or_false] at h
    rcases h with rfl | rfl | rfl <;> decide
  · intro h
    obtain ⟨e, rest, rfl, he, hrest⟩ := decode_eq_cons h
    cases decode_eq_nil.1 hrest
    rcases spells_dot he with rfl | rfl | rfl <;> decide

theorem isDoubleDot_iff (s : Segment) :
    isDoubleDot s = true ↔ decodeUnreservedPercentOctets s = ['.', '.'] := by
  constructor
  · intro h
    simp only [isDoubleDot, List.contains_iff_mem, List.mem_cons, List.not_mem_nil, or_false] at h
    rcases h with rfl | rfl | rfl | rfl | rfl | rfl | rfl | rfl | rfl <;> decide
  · intro h
    obtain ⟨e, rest, rfl, he, hrest⟩ := decode_eq_cons h
    obtain ⟨e', rest', rfl, he', hrest'⟩ := decode_eq_cons hrest
    cases decode_eq_nil.1 hrest'
    rcases spells_dot he with rfl | rfl | rfl <;> rcases spells_dot he' with rfl | rfl | rfl <;> decide

theorem dots_congr {s s' : Segment}
    (h : decodeUnreservedPercentOctets s = decodeUnreservedPercentOctets s') :
    isDoubleDot s = isDoubleDot s' ∧ isSingleDot s = isSingleDot s' := by
  constructor
  · rw [Bool.eq_iff_iff, isDoubleDot_iff, isDoubleDot_iff, h]
  · rw [Bool.eq_iff_iff, isSingleDot_iff, isSingleDot_iff, h]

/-! ## What the canonical path depends on -/

/-- The segments, decoded. -/
def decoded (segs : List Segment) : List Segment := segs.map decodeUnreservedPercentOctets

theorem decoded_cons_inv {s : Segment} {rest segs' : List Segment} (h : decoded (s :: rest) = decoded segs') :
    ∃ s' rest', segs' = s' :: rest' ∧
      decodeUnreservedPercentOctets s = decodeUnreservedPercentOctets s' ∧ decoded rest = decoded rest' := by
  cases segs' with
  | nil => cases h
  | cons s' rest' =>
    obtain ⟨hs, hrest⟩ := List.cons.inj h
    exact ⟨s', rest', rfl, hs, hrest⟩

theorem decoded_eq_nil {segs segs' : List Segment} (h : decoded segs = decoded segs') :
    segs = [] ↔ segs' = [] := by
  rw [← List.map_eq_nil_iff (f := decodeUnreservedPercentOctets), ← decoded, h, decoded, List.map_eq_nil_iff]

theorem pathState_congr {segs segs' : List Segment} (h : decoded segs = decoded segs') :
    ∀ out out', decoded out = decoded out' →
      decoded (pathState out segs) = decoded (pathState out' segs') := by
  induction segs generalizing segs' with
  | nil =>
    intro out out' hout
    rw [(decoded_eq_nil h).1 rfl]
    exact hout
  | cons s rest ih =>
    intro out out' hout
    obtain ⟨s', rest', rfl, hs, hrest⟩ := decoded_cons_inv h
    obtain ⟨hd, hsd⟩ := dots_congr hs
    have hdrop : decoded out.dropLast = decoded out'.dropLast := by
      simp only [decoded, List.map_dropLast] at hout ⊢
      rw [hout]
    have happ : ∀ {t t' : Segment}, decodeUnreservedPercentOctets t = decodeUnreservedPercentOctets t' →
        ∀ {o o' : List Segment}, decoded o = decoded o' → decoded (o ++ [t]) = decoded (o' ++ [t']) := by
      intro t t' ht o o' ho
      simp only [decoded, List.map_append, List.map_cons, List.map_nil] at ho ⊢
      rw [ho, ht]
    by_cases hr : rest = []
    · have hr' := (decoded_eq_nil hrest).1 hr
      subst hr hr'
      simp only [pathState, hd, hsd]
      split
      · exact happ rfl hdrop
      · split
        · exact happ rfl hout
        · exact happ hs hout
    · have hr' : rest' ≠ [] := fun hr' => hr ((decoded_eq_nil hrest).2 hr')
      rw [pathState_cons out s hr, pathState_cons out' s' hr', hd, hsd]
      split
      · exact ih hrest _ _ hdrop
      · split
        · exact ih hrest _ _ hout
        · exact ih hrest _ _ (happ hs hout)

theorem collapseSegments_congr {segs segs' : List Segment} (h : decoded segs = decoded segs') :
    ∀ st, decoded (collapseSegments st segs) = decoded (collapseSegments st segs') := by
  induction segs generalizing segs' with
  | nil =>
    intro st
    rw [(decoded_eq_nil h).1 rfl]
  | cons s rest ih =>
    intro st
    obtain ⟨s', rest', rfl, hs, hrest⟩ := decoded_cons_inv h
    have hnil : s = [] ↔ s' = [] := by rw [← decode_eq_nil, hs, decode_eq_nil]
    have hnext : st.next s = st.next s' := by rw [← next_decode, hs, next_decode]
    rw [collapseSegments, collapseSegments]
    simp only [hnil, ne_eq, decoded_eq_nil hrest, hnext]
    split
    · exact ih hrest _
    · simp only [decoded, List.map_cons, List.cons.injEq]
      exact ⟨hs, ih hrest _⟩

/-- The canonical path of a text is that of every text with the same decoded segments. -/
theorem canonical_setPath_congr {t t' : List Char} (h : decoded (readSegments t) = decoded (readSegments t')) :
    (setPath t).canonical = (setPath t').canonical := by
  refine Path.ext ?_
  have hparsed : decoded (setPath t).segments = decoded (setPath t').segments := pathState_congr h [] [] rfl
  have hcollapsed := collapseSegments_congr hparsed .slash
  rw [Path.canonical, Path.canonical, Path.decode_segments, Path.decode_segments, Path.collapse_segments,
    Path.collapse_segments]
  exact congrArg (pathState []) hcollapsed

theorem Respell.canonical {t t' : List Char} (h : Respell t t')
    (ht : ∀ c ∈ t, isTabOrNewline c = false) (ht' : ∀ c ∈ t', isTabOrNewline c = false) :
    (setPath t).canonical = (setPath t').canonical := by
  refine canonical_setPath_congr ?_
  rw [readSegments_eq ht, readSegments_eq ht']
  exact h.dropSlash.segments

end Crawlrs.Url
