import Crawlrs.L1Data.Octets

/-!
# The path of an `http(s)` URL

`url::Url` keeps the path as the URL Standard has it: a list of segments, none of
them a dot segment, with every character of the path percent-encode set encoded.
`set_path` splits its text at slashes and backslashes, encodes and removes dot
segments (`pathState`); a text made of well-formed segments is read back as these
(`setPath_segments`).
-/
namespace Crawlrs.Url

abbrev Segment := List Char

/-! ## The URL Standard -/

/-- One digit of a percent-encoded byte. -/
def upperHex (d : Nat) : Char := if d < 10 then Char.ofNat (48 + d) else Char.ofNat (55 + d)

def percentEncodeByte (b : UInt8) : List Char :=
  ['%', upperHex (b.toNat / 16), upperHex (b.toNat % 16)]

def percentEncode (c : Char) : List Char := (String.utf8EncodeChar c).flatMap percentEncodeByte

/-- Controls and everything that is not ASCII; space, double quote, `#`, `<`, `>`, `?`, `^`, the
backtick and the braces. -/
def pathPercentEncodeSet (c : Char) : Bool :=
  decide (c.toNat ≤ 0x1F) || decide (0x7E < c.toNat) ||
    [0x20, 0x22, 0x23, 0x3C, 0x3E, 0x3F, 0x5E, 0x60, 0x7B, 0x7D].contains c.toNat

def encodePathChar (c : Char) : List Char := if pathPercentEncodeSet c then percentEncode c else [c]

def isSlash (c : Char) : Bool := c == '/' || c == '\\'

/-- A character of a segment. -/
def PathChar (c : Char) : Prop := pathPercentEncodeSet c = false ∧ isSlash c = false

def isSingleDot (s : Segment) : Bool := [['.'], ['%', '2', 'e'], ['%', '2', 'E']].contains s

def isDoubleDot (s : Segment) : Bool :=
  [['.', '.'], ['.', '%', '2', 'e'], ['.', '%', '2', 'E'], ['%', '2', 'e', '.'],
    ['%', '2', 'E', '.'], ['%', '2', 'e', '%', '2', 'e'], ['%', '2', 'e', '%', '2', 'E'],
    ['%', '2', 'E', '%', '2', 'e'], ['%', '2', 'E', '%', '2', 'E']].contains s

/-- The path state, segment by segment. A dot segment at the end leaves the empty segment. -/
def pathState (out : List Segment) : List Segment → List Segment
  | [] => out
  | [s] =>
    if isDoubleDot s then out.dropLast ++ [[]] else if isSingleDot s then out ++ [[]] else out ++ [s]
  | s :: rest =>
    if isDoubleDot s then pathState out.dropLast rest
    else if isSingleDot s then pathState out rest
    else pathState (out ++ [s]) rest

/-- The segments `set_path` reads in its text. -/
def readSegments (text : List Char) : List Segment :=
  let text := text.filter fun c => !(c == '\t' || c == '\n' || c == '\r')
  let text := match text with
    | c :: rest => if isSlash c then rest else text
    | [] => []
  (text.splitOnP isSlash).map fun s => s.flatMap encodePathChar

/-- A path as the parser leaves it. -/
structure Path where
  segments : List Segment
  ne : segments ≠ []
  chars : ∀ s ∈ segments, ∀ c ∈ s, PathChar c
  noDots : ∀ s ∈ segments, isDoubleDot s = false ∧ isSingleDot s = false

/-- Slash-separated, without the first slash. -/
def joinTail (segs : List Segment) : List Char := ['/'].intercalate segs

/-- `url.path()`. -/
def Path.str (p : Path) : List Char := '/' :: joinTail p.segments

theorem upperHex_pathChar {d : Nat} (h : d < 16) : PathChar (upperHex d) := by
  unfold PathChar
  decide +revert

theorem percentEncodeByte_pathChar (b : UInt8) : ∀ c ∈ percentEncodeByte b, PathChar c := by
  have hb := b.toNat_lt
  intro c hc
  simp only [percentEncodeByte, List.mem_cons, List.not_mem_nil, or_false] at hc
  rcases hc with rfl | rfl | rfl
  · exact ⟨by decide, by decide⟩
  · exact upperHex_pathChar (by omega)
  · exact upperHex_pathChar (by omega)

theorem encodePathChar_pathChar {c : Char} (h : isSlash c = false) :
    ∀ d ∈ encodePathChar c, PathChar d := by
  intro d hd
  unfold encodePathChar at hd
  split at hd
  · obtain ⟨b, -, hd⟩ := List.mem_flatMap.1 hd
    exact percentEncodeByte_pathChar b d hd
  · rename_i hset
    cases List.mem_singleton.1 hd
    exact ⟨by simpa using hset, h⟩

theorem encodePathChar_of_pathChar {c : Char} (h : PathChar c) : encodePathChar c = [c] := by
  simp [encodePathChar, h.1]

theorem encode_of_pathChar {s : Segment} (h : ∀ c ∈ s, PathChar c) : s.flatMap encodePathChar = s := by
  rw [List.flatMap_congr fun c hc => encodePathChar_of_pathChar (h c hc)]
  exact List.flatMap_singleton' s

theorem mem_splitOnP {α : Type} {p : α → Bool} {s xs : List α} (h : s ∈ xs.splitOnP p) :
    ∀ x ∈ s, p x = false := by
  induction xs generalizing s with
  | nil =>
    rw [List.splitOnP_nil, List.mem_singleton] at h
    simp [h]
  | cons x xs ih =>
    rw [List.splitOnP_cons_eq_if_modifyHead] at h
    split at h
    · rcases List.mem_cons.1 h with rfl | h
      · simp
      · exact ih h
    · rename_i hx
      cases hsplit : xs.splitOnP p with
      | nil => exact absurd hsplit (List.splitOnP_ne_nil p xs)
      | cons t ts =>
        rw [hsplit, List.modifyHead_cons, List.mem_cons] at h
        rcases h with rfl | h
        · intro y hy
          rcases List.mem_cons.1 hy with rfl | hy
          · simpa using hx
          · exact ih (by rw [hsplit]; exact List.mem_cons_self) y hy
        · exact ih (by rw [hsplit]; exact List.mem_cons_of_mem _ h)

theorem readSegments_ne (text : List Char) : readSegments text ≠ [] := by
  simp [readSegments, List.splitOnP_ne_nil]

theorem readSegments_chars (text : List Char) : ∀ s ∈ readSegments text, ∀ c ∈ s, PathChar c := by
  intro s hs c hc
  obtain ⟨t, ht, rfl⟩ := List.mem_map.1 hs
  obtain ⟨d, hd, hc⟩ := List.mem_flatMap.1 hc
  exact encodePathChar_pathChar (mem_splitOnP ht d hd) c hc

/-! ## Dot segments -/

/-- A dot segment has a last character, and it is no colon. -/
theorem dot_ne_nil {s : Segment} (h : isDoubleDot s = true ∨ isSingleDot s = true) :
    s ≠ [] ∧ s.getLast? ≠ some ':' := by
  rcases h with h | h
  · simp only [isDoubleDot, List.contains_iff_mem, List.mem_cons, List.not_mem_nil, or_false] at h
    rcases h with rfl | rfl | rfl | rfl | rfl | rfl | rfl | rfl | rfl <;> decide
  · simp only [isSingleDot, List.contains_iff_mem, List.mem_cons, List.not_mem_nil, or_false] at h
    rcases h with rfl | rfl | rfl <;> decide

/-- One segment before the end. -/
theorem pathState_cons (out : List Segment) (s : Segment) {rest : List Segment} (h : rest ≠ []) :
    pathState out (s :: rest) =
      if isDoubleDot s then pathState out.dropLast rest
      else if isSingleDot s then pathState out rest
      else pathState (out ++ [s]) rest := by
  cases rest with
  | nil => exact absurd rfl h
  | cons t rest => rfl

/-- The last segment, and one before it. -/
theorem pathState_induction {P : List Segment → List Segment → Prop}
    (last : ∀ out s, P out [s])
    (double : ∀ out s rest, rest ≠ [] → isDoubleDot s = true → P out.dropLast rest →
      P out (s :: rest))
    (single : ∀ out s rest, rest ≠ [] → isDoubleDot s = false → isSingleDot s = true → P out rest →
      P out (s :: rest))
    (other : ∀ out s rest, rest ≠ [] → isDoubleDot s = false → isSingleDot s = false →
      P (out ++ [s]) rest → P out (s :: rest))
    (segs : List Segment) : segs ≠ [] → ∀ out, P out segs := by
  induction segs with
  | nil => exact fun h => absurd rfl h
  | cons s rest ih =>
    intro _ out
    by_cases hr : rest = []
    · subst hr
      exact last out s
    · cases hd : isDoubleDot s with
      | true => exact double out s rest hr hd (ih hr _)
      | false =>
        cases hs : isSingleDot s with
        | true => exact single out s rest hr hd hs (ih hr _)
        | false => exact other out s rest hr hd hs (ih hr _)

theorem pathState_ne (segs : List Segment) (h : segs ≠ []) (out : List Segment) :
    pathState out segs ≠ [] := by
  refine pathState_induction (P := fun out segs => pathState out segs ≠ []) ?_ ?_ ?_ ?_ segs h out
  · intro out s
    simp only [pathState]
    split
    · simp
    · split <;> simp
  · intro out s rest hr hd ih
    rwa [pathState_cons out s hr, if_pos hd]
  · intro out s rest hr hd hs ih
    simpa only [pathState_cons out s hr, hd, hs, Bool.false_eq_true, if_false, if_true] using ih
  · intro out s rest hr hd hs ih
    simpa only [pathState_cons out s hr, hd, hs, Bool.false_eq_true, if_false] using ih

/-- What is left is the empty segment, or was there and is no dot segment. -/
theorem mem_pathState (segs : List Segment) (h : segs ≠ []) (out : List Segment) :
    ∀ t ∈ pathState out segs,
      t = [] ∨ t ∈ out ∨ t ∈ segs ∧ isDoubleDot t = false ∧ isSingleDot t = false := by
  refine pathState_induction (P := fun out segs => ∀ t ∈ pathState out segs,
    t = [] ∨ t ∈ out ∨ t ∈ segs ∧ isDoubleDot t = false ∧ isSingleDot t = false) ?_ ?_ ?_ ?_ segs h out
  · intro out s t ht
    simp only [pathState] at ht
    split at ht
    · rcases List.mem_append.1 ht with ht | ht
      · exact Or.inr (Or.inl (List.mem_of_mem_dropLast ht))
      · exact Or.inl (List.mem_singleton.1 ht)
    · split at ht
      · rcases List.mem_append.1 ht with ht | ht
        · exact Or.inr (Or.inl ht)
        · exact Or.inl (List.mem_singleton.1 ht)
      · rename_i hd hs
        rcases List.mem_append.1 ht with ht | ht
        · exact Or.inr (Or.inl ht)
        · cases List.mem_singleton.1 ht
          exact Or.inr (Or.inr ⟨List.mem_singleton_self _, by simpa using hd, by simpa using hs⟩)
  · intro out s rest hr hd ih t ht
    rw [pathState_cons out s hr, if_pos hd] at ht
    rcases ih t ht with h | h | h
    · exact Or.inl h
    · exact Or.inr (Or.inl (List.mem_of_mem_dropLast h))
    · exact Or.inr (Or.inr ⟨List.mem_cons_of_mem _ h.1, h.2⟩)
  · intro out s rest hr hd hs ih t ht
    simp only [pathState_cons out s hr, hd, hs, Bool.false_eq_true, if_false, if_true] at ht
    rcases ih t ht with h | h | h
    · exact Or.inl h
    · exact Or.inr (Or.inl h)
    · exact Or.inr (Or.inr ⟨List.mem_cons_of_mem _ h.1, h.2⟩)
  · intro out s rest hr hd hs ih t ht
    simp only [pathState_cons out s hr, hd, hs, Bool.false_eq_true, if_false] at ht
    rcases ih t ht with h | h | h
    · exact Or.inl h
    · rcases List.mem_append.1 h with h | h
      · exact Or.inr (Or.inl h)
      · cases List.mem_singleton.1 h
        exact Or.inr (Or.inr ⟨List.mem_cons_self, hd, hs⟩)
    · exact Or.inr (Or.inr ⟨List.mem_cons_of_mem _ h.1, h.2⟩)

/-- Without dot segments every segment stays. -/
theorem pathState_noDots {segs : List Segment}
    (h : ∀ s ∈ segs, isDoubleDot s = false ∧ isSingleDot s = false) (out : List Segment) :
    pathState out segs = out ++ segs := by
  induction segs generalizing out with
  | nil => simp [pathState]
  | cons s rest ih =>
    obtain ⟨hd, hs⟩ := h s List.mem_cons_self
    by_cases hr : rest = []
    · subst hr
      simp [pathState, hd, hs]
    · rw [pathState_cons out s hr]
      simp [hd, hs, ih fun t ht => h t (List.mem_cons_of_mem _ ht)]

/-- `Url::set_path` on an `http(s)` URL. -/
def setPath (text : List Char) : Path where
  segments := pathState [] (readSegments text)
  ne := pathState_ne _ (readSegments_ne text) []
  chars s hs := by
    rcases mem_pathState _ (readSegments_ne text) [] s hs with rfl | h | h
    · simp
    · cases h
    · exact readSegments_chars text s h.1
  noDots s hs := by
    rcases mem_pathState _ (readSegments_ne text) [] s hs with rfl | h | h
    · decide
    · cases h
    · exact h.2

theorem joinTail_cons (s : Segment) {rest : List Segment} (h : rest ≠ []) :
    joinTail (s :: rest) = s ++ '/' :: joinTail rest := by
  simp [joinTail, List.intercalate_cons_of_ne_nil h]

@[simp] theorem joinTail_singleton (s : Segment) : joinTail [s] = s := List.intercalate_singleton

theorem not_isSlash_of_pathChar {s : Segment} (h : ∀ c ∈ s, PathChar c) :
    ∀ c ∈ s, isSlash c = false := fun c hc => (h c hc).2

theorem splitOnP_joinTail {segs : List Segment} (hne : segs ≠ [])
    (h : ∀ s ∈ segs, ∀ c ∈ s, PathChar c) : (joinTail segs).splitOnP isSlash = segs := by
  induction segs with
  | nil => exact absurd rfl hne
  | cons s rest ih =>
    have hs := not_isSlash_of_pathChar (h s List.mem_cons_self)
    by_cases hr : rest = []
    · subst hr
      rw [joinTail_singleton, List.splitOnP_eq_singleton hs]
    · rw [joinTail_cons s hr, List.splitOnP_append_cons_of_forall_mem hs '/' rfl,
        ih hr fun t ht => h t (List.mem_cons_of_mem _ ht)]

theorem mem_joinTail {segs : List Segment} {c : Char} (h : c ∈ joinTail segs) :
    c = '/' ∨ ∃ s ∈ segs, c ∈ s := by
  induction segs with
  | nil => cases h
  | cons s rest ih =>
    by_cases hr : rest = []
    · subst hr
      rw [joinTail_singleton] at h
      exact Or.inr ⟨s, List.mem_cons_self, h⟩
    · rw [joinTail_cons s hr, List.mem_append, List.mem_cons] at h
      rcases h with h | rfl | h
      · exact Or.inr ⟨s, List.mem_cons_self, h⟩
      · exact Or.inl rfl
      · rcases ih h with h | ⟨t, ht, hc⟩
        · exact Or.inl h
        · exact Or.inr ⟨t, List.mem_cons_of_mem _ ht, hc⟩

/-- A text of well-formed segments is read back as these. -/
theorem readSegments_joinTail {segs : List Segment} (hne : segs ≠ [])
    (h : ∀ s ∈ segs, ∀ c ∈ s, PathChar c) : readSegments ('/' :: joinTail segs) = segs := by
  have hkeep : ('/' :: joinTail segs).filter (fun c => !(c == '\t' || c == '\n' || c == '\r')) =
      '/' :: joinTail segs := by
    rw [List.filter_eq_self]
    intro c hc
    have hc : c = '/' ∨ ∃ s ∈ segs, c ∈ s := by
      rcases List.mem_cons.1 hc with rfl | hc
      · exact Or.inl rfl
      · exact mem_joinTail hc
    rcases hc with rfl | ⟨s, hs, hc⟩
    · decide
    · have hset := (h s hs c hc).1
      refine Bool.not_eq_true' _ ▸ ?_
      simp only [Bool.or_eq_false_iff, beq_eq_false_iff_ne]
      refine ⟨⟨?_, ?_⟩, ?_⟩ <;> rintro rfl <;> exact absurd hset (by decide)
  have hslash : isSlash '/' = true := rfl
  simp only [readSegments, hkeep, hslash, if_true, splitOnP_joinTail hne h]
  calc segs.map (fun s => s.flatMap encodePathChar) = segs.map id :=
        List.map_congr_left fun s hs => encode_of_pathChar (h s hs)
    _ = segs := List.map_id _

theorem setPath_segments {segs : List Segment} (hne : segs ≠ [])
    (h : ∀ s ∈ segs, ∀ c ∈ s, PathChar c) :
    (setPath ('/' :: joinTail segs)).segments = pathState [] segs := by
  simp only [setPath, readSegments_joinTail hne h]

end Crawlrs.Url
