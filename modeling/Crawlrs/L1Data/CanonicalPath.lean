import Crawlrs.L1Data.Slashes
import Mathlib.Algebra.Order.BigOperators.Group.List
import Mathlib.Algebra.Order.Group.Nat

/-!
# The path steps of `canonicalize`

Collapse the slashes, decode the unreserved octets, each followed by `set_path`
where it changed something. On segments: drop empty ones (`collapse_segments`),
decode each and remove the dot segments this has brought out (`decode_segments`).

`canonical_canonical_iff`: doing it again changes nothing exactly where no segment
that is left has a nested octet. The slashes never need a second round.
-/
namespace Crawlrs.Url

theorem Path.ext {p q : Path} (h : p.segments = q.segments) : p = q := by
  cases p
  cases q
  cases h
  rfl

/-- `set_path` with the rewritten text, where it differs. -/
def Path.rewrite (f : List Char → List Char) (p : Path) : Path :=
  if f p.str ≠ p.str then setPath (f p.str) else p

/-- mirrors crates/crawlrs-core/src/url.rs:167-172 -/
def Path.collapse : Path → Path := Path.rewrite collapsePathSlashes

/-- mirrors crates/crawlrs-core/src/url.rs:174-181 -/
def Path.decode : Path → Path := Path.rewrite decodeUnreservedPercentOctets

/-! ## Decoding, segment by segment -/

theorem isUnreserved_pathChar {c : Char} (h : isRfc3986Unreserved c = true) : PathChar c := by
  simp only [isRfc3986Unreserved, Bool.or_eq_true, decide_eq_true_eq, beq_iff_eq] at h
  have hrange : 48 ≤ c.toNat ∧ c.toNat ≤ 57 ∨ 65 ≤ c.toNat ∧ c.toNat ≤ 90 ∨
      97 ≤ c.toNat ∧ c.toNat ≤ 122 ∨ c.toNat = 45 ∨ c.toNat = 46 ∨ c.toNat = 95 ∨ c.toNat = 126 := by
    rcases h with (((((h | h) | h) | rfl) | rfl) | rfl) | rfl
    · exact Or.inr (Or.inl h)
    · exact Or.inr (Or.inr (Or.inl h))
    · exact Or.inl h
    all_goals decide
  refine ⟨?_, ?_⟩
  · simp only [pathPercentEncodeSet, Bool.or_eq_false_iff, decide_eq_false_iff_not,
      List.contains_eq_mem, List.mem_cons, List.not_mem_nil, or_false]
    omega
  · simp only [isSlash, Bool.or_eq_false_iff, beq_eq_false_iff_ne]
    constructor <;> rintro rfl <;> exact absurd hrange (by decide)

theorem decode_pathChar {s : Segment} (h : ∀ c ∈ s, PathChar c) :
    ∀ c ∈ decodeUnreservedPercentOctets s, PathChar c := by
  induction s using octet_induction with
  | nil => simp
  | octet a b c rest hc ih =>
    rw [decode_octet hc]
    intro d hd
    rcases List.mem_cons.1 hd with rfl | hd
    · exact isUnreserved_pathChar (octet_digits hc).2.2
    · exact ih (fun x hx => h x (by simp [hx])) d hd
  | plain c rest hc ih =>
    rw [decode_plain hc]
    intro d hd
    rcases List.mem_cons.1 hd with rfl | hd
    · exact h d List.mem_cons_self
    · exact ih (fun x hx => h x (List.mem_cons_of_mem _ hx)) d hd

theorem decode_eq_nil {s : Segment} : decodeUnreservedPercentOctets s = [] ↔ s = [] := by
  induction s using octet_induction with
  | nil => simp
  | octet a b c rest hc ih => simp [decode_octet hc]
  | plain c rest hc ih => simp [decode_plain hc]

/-- A colon is never the product of decoding. -/
theorem getLast_decode {s : Segment} :
    (decodeUnreservedPercentOctets s).getLast? = some ':' ↔ s.getLast? = some ':' := by
  induction s using octet_induction with
  | nil => simp
  | octet a b c rest hc ih =>
    rw [decode_octet hc]
    cases rest with
    | nil =>
      obtain ⟨-, ⟨n, hb⟩, hu⟩ := octet_digits hc
      have hcolon : c ≠ ':' := by
        rintro rfl
        exact absurd hu (by decide)
      have hbcolon : b ≠ ':' := by
        rintro rfl
        simp [show hexDigit ':' = none from by decide] at hb
      simp [hcolon, hbcolon]
    | cons x xs =>
      obtain ⟨y, ys, hy⟩ := List.exists_cons_of_ne_nil (mt decode_eq_nil.1 (List.cons_ne_nil x xs))
      rw [hy] at ih ⊢
      simpa only [List.getLast?_cons_cons] using ih
  | plain c rest hc ih =>
    rw [decode_plain hc]
    cases rest with
    | nil => simp
    | cons x xs =>
      obtain ⟨y, ys, hy⟩ := List.exists_cons_of_ne_nil (mt decode_eq_nil.1 (List.cons_ne_nil x xs))
      rw [hy] at ih ⊢
      simpa only [List.getLast?_cons_cons] using ih

/-- No octet reaches over a slash. -/
theorem startsOctet_append_slash {s : List Char} (hne : s ≠ []) (t : List Char)
    (h : startsOctet s = false) : startsOctet (s ++ '/' :: t) = false := by
  have hslash : hexDigit '/' = none := by decide
  cases s with
  | nil => exact absurd rfl hne
  | cons c s =>
    by_cases hc : c = '%'
    · subst hc
      match s with
      | [] =>
        cases t with
        | nil => rfl
        | cons x t => simp [startsOctet, octet, hslash]
      | [a] => simp [startsOctet, octet, hslash]
      | a :: b :: s => exact h
    · exact startsOctet_of_ne hc

theorem decode_append_slash (s t : List Char) :
    decodeUnreservedPercentOctets (s ++ '/' :: t) =
      decodeUnreservedPercentOctets s ++ '/' :: decodeUnreservedPercentOctets t := by
  induction s using octet_induction with
  | nil => exact decode_plain (startsOctet_of_ne (by decide))
  | octet a b c rest hc ih =>
    rw [decode_octet hc, List.cons_append, List.cons_append, List.cons_append, decode_octet hc, ih]
    rfl
  | plain c rest hc ih =>
    have hplain := startsOctet_append_slash (List.cons_ne_nil c rest) t hc
    rw [List.cons_append] at hplain ⊢
    rw [decode_plain hplain, decode_plain hc, ih]
    rfl

theorem decode_joinTail (segs : List Segment) :
    decodeUnreservedPercentOctets (joinTail segs) =
      joinTail (segs.map decodeUnreservedPercentOctets) := by
  induction segs with
  | nil => rfl
  | cons s rest ih =>
    by_cases hr : rest = []
    · subst hr
      simp
    · rw [joinTail_cons s hr, decode_append_slash, ih, List.map_cons, joinTail_cons _ (by simpa using hr)]

theorem decode_str (p : Path) : decodeUnreservedPercentOctets p.str =
    '/' :: joinTail (p.segments.map decodeUnreservedPercentOctets) := by
  rw [Path.str, decode_plain (startsOctet_of_ne (by decide)), decode_joinTail]

/-! ## The steps on segments -/

theorem Path.setPath_str (p : Path) : setPath p.str = p := by
  refine Path.ext ?_
  rw [Path.str, setPath_segments p.ne p.chars, pathState_noDots p.noDots, List.nil_append]

/-- Setting a path to its own text changes nothing. -/
theorem Path.rewrite_eq (f : List Char → List Char) (p : Path) : p.rewrite f = setPath (f p.str) := by
  unfold Path.rewrite
  split
  · rfl
  · rename_i h
    rw [not_not.1 h, p.setPath_str]

theorem Path.collapse_segments (p : Path) :
    p.collapse.segments = collapseSegments .slash p.segments := by
  have hchars : ∀ s ∈ collapseSegments .slash p.segments, ∀ c ∈ s, PathChar c :=
    fun s hs => p.chars s (mem_collapseSegments hs)
  rw [Path.collapse, Path.rewrite_eq, collapsePathSlashes_str,
    setPath_segments (collapseSegments_ne p.ne) hchars,
    pathState_noDots (fun s hs => p.noDots s (mem_collapseSegments hs)), List.nil_append]

theorem Path.decode_segments (p : Path) :
    p.decode.segments = pathState [] (p.segments.map decodeUnreservedPercentOctets) := by
  have hchars : ∀ s ∈ p.segments.map decodeUnreservedPercentOctets, ∀ c ∈ s, PathChar c := by
    intro s hs
    obtain ⟨t, ht, rfl⟩ := List.mem_map.1 hs
    exact decode_pathChar (p.chars t ht)
  rw [Path.decode, Path.rewrite_eq, decode_str, setPath_segments (by simpa using p.ne) hchars]

/-! ## A second time -/

/-- Characters and slashes. -/
def total (segs : List Segment) : Nat := (segs.map fun s => s.length + 1).sum

theorem total_dropLast_le (segs : List Segment) : total segs.dropLast ≤ total segs :=
  ((List.dropLast_sublist segs).map _).sum_le_sum fun _ _ => Nat.zero_le _

theorem total_append (a b : List Segment) : total (a ++ b) = total a + total b := by
  simp [total]

theorem total_pathState_le (segs : List Segment) (hne : segs ≠ []) (out : List Segment) :
    total (pathState out segs) ≤ total out + total segs := by
  refine pathState_induction (P := fun out segs => total (pathState out segs) ≤ total out + total segs)
    ?_ ?_ ?_ ?_ segs hne out
  · intro out s
    have hdrop := total_dropLast_le out
    have hempty : total [[]] = 1 := rfl
    have hone : total [s] = s.length + 1 := by simp [total]
    simp only [pathState]
    split
    · rw [total_append]
      omega
    · split
      · rw [total_append]
        omega
      · exact (total_append out [s]).le
  · intro out s rest hr hd ih
    have hdrop := total_dropLast_le out
    have hcons : total (s :: rest) = s.length + 1 + total rest := by simp [total]
    rw [pathState_cons out s hr, if_pos hd]
    omega
  · intro out s rest hr hd hs ih
    have hcons : total (s :: rest) = s.length + 1 + total rest := by simp [total]
    simp only [pathState_cons out s hr, hd, hs, Bool.false_eq_true, if_false, if_true]
    omega
  · intro out s rest hr hd hs ih
    have hcons : total (s :: rest) = total [s] + total rest := by simp [total]
    simp only [pathState_cons out s hr, hd, hs, Bool.false_eq_true, if_false]
    rw [total_append] at ih
    omega

theorem total_map_decode_lt {segs : List Segment}
    (h : ∃ s ∈ segs, decodeUnreservedPercentOctets s ≠ s) :
    total (segs.map decodeUnreservedPercentOctets) < total segs := by
  obtain ⟨s, hs, hne⟩ := h
  rw [total, List.map_map]
  refine List.sum_lt_sum _ _ (fun t _ => ?_) ⟨s, hs, ?_⟩
  · exact Nat.succ_le_succ (length_decode_le t)
  · exact Nat.succ_lt_succ (length_decode_lt hne)

/-- Decoding leaves a path alone where it leaves every segment alone: a shorter segment is not made
up for. -/
theorem Path.decode_eq_self_iff (p : Path) :
    p.decode = p ↔ ∀ s ∈ p.segments, decodeUnreservedPercentOctets s = s := by
  constructor
  · intro h
    by_contra hne
    push Not at hne
    have hlt := total_map_decode_lt hne
    have hle := total_pathState_le (p.segments.map decodeUnreservedPercentOctets)
      (by simpa using p.ne) []
    rw [← p.decode_segments, h] at hle
    have hnil : total [] = 0 := rfl
    omega
  · intro h
    refine Path.ext ?_
    rw [p.decode_segments, List.map_congr_left (g := id) h, List.map_id,
      pathState_noDots p.noDots, List.nil_append]

theorem next_decode (st : After) (s : Segment) : st.next (decodeUnreservedPercentOctets s) = st.next s := by
  simp [After.next, decode_eq_nil, getLast_decode]

theorem open_map_decode {st : After} {segs : List Segment} (h : Open st segs) :
    Open st (segs.map decodeUnreservedPercentOctets) := by
  induction segs generalizing st with
  | nil => trivial
  | cons s rest ih =>
    refine ⟨fun hs => h.1 (decode_eq_nil.1 hs), ?_⟩
    rw [next_decode]
    exact ih h.2

/-- mirrors crates/crawlrs-core/src/url.rs:167-181 -/
def Path.canonical (p : Path) : Path := p.collapse.decode

/-- A second round collapses nothing. -/
theorem Path.canonical_collapse (p : Path) : p.canonical.collapse = p.canonical := by
  refine Path.ext ?_
  rw [Path.collapse_segments]
  refine collapseSegments_of_open ?_
  rw [Path.canonical, Path.decode_segments, Path.collapse_segments]
  refine open_pathState _ (by simpa using collapseSegments_ne p.ne) [] .slash trivial ?_ (Or.inr rfl)
  rw [← List.map_dropLast]
  exact open_map_decode (open_collapseSegments .slash p.segments)

/-- The segments that are left once those that decode to a dot segment have had their effect. -/
def surviving (out : List Segment) : List Segment → List Segment
  | [] => out
  | s :: rest =>
    if isDoubleDot (decodeUnreservedPercentOctets s) then surviving out.dropLast rest
    else if isSingleDot (decodeUnreservedPercentOctets s) then surviving out rest
    else surviving (out ++ [s]) rest

/-- The last segment decodes to a dot segment. -/
def endsInDots (segs : List Segment) : Bool :=
  segs.getLast?.any fun s =>
    isDoubleDot (decodeUnreservedPercentOctets s) || isSingleDot (decodeUnreservedPercentOctets s)

/-- What is left, decoded; a dot segment at the end leaves the empty segment. -/
theorem pathState_map_decode (segs : List Segment) : ∀ out : List Segment,
    pathState (out.map decodeUnreservedPercentOctets) (segs.map decodeUnreservedPercentOctets) =
      (surviving out segs).map decodeUnreservedPercentOctets ++ if endsInDots segs then [[]] else [] := by
  induction segs with
  | nil => exact fun out => (List.append_nil _).symm
  | cons s rest ih =>
    intro out
    by_cases hr : rest = []
    · subst hr
      have hlast : endsInDots [s] = (isDoubleDot (decodeUnreservedPercentOctets s) ||
        isSingleDot (decodeUnreservedPercentOctets s)) := rfl
      simp only [List.map_cons, List.map_nil, pathState, surviving, hlast]
      split
      · rename_i hd
        rw [List.map_dropLast, hd, Bool.true_or, if_pos rfl]
      · rename_i hd
        split
        · rename_i hs
          rw [hs, Bool.or_true, if_pos rfl]
        · rename_i hs
          rw [if_neg (by simp [hd, hs]), List.append_nil, List.map_append]
          rfl
    · have hlast : endsInDots (s :: rest) = endsInDots rest := by
        obtain ⟨t, ts, rfl⟩ := List.exists_cons_of_ne_nil hr
        rw [endsInDots, List.getLast?_cons_cons, endsInDots]
      rw [List.map_cons, pathState_cons _ _ (by simpa using hr), surviving, hlast]
      split
      · rw [← List.map_dropLast]
        exact ih out.dropLast
      · split
        · exact ih out
        · have h := ih (out ++ [s])
          rwa [List.map_append] at h

/-- The segments of the path, slashes collapsed, that are left. -/
def Path.survivors (p : Path) : List Segment := surviving [] p.collapse.segments

theorem Path.canonical_segments (p : Path) : p.canonical.segments =
    p.survivors.map decodeUnreservedPercentOctets ++ if endsInDots p.collapse.segments then [[]] else [] := by
  have hpath := pathState_map_decode p.collapse.segments []
  rwa [List.map_nil, ← Path.decode_segments] at hpath

/-- A second round changes nothing exactly where no segment that is left has a nested octet. -/
theorem Path.canonical_canonical_iff (p : Path) :
    p.canonical.canonical = p.canonical ↔ ∀ s ∈ p.survivors, ¬ Nested s := by
  have hround : p.canonical.canonical = p.canonical.decode := by
    rw [Path.canonical, p.canonical_collapse]
  have hsegs : ∀ Q : Segment → Prop, Q [] → ((∀ s ∈ p.canonical.segments, Q s) ↔
      ∀ s ∈ p.survivors, Q (decodeUnreservedPercentOctets s)) := by
    intro Q hnil
    rw [Path.canonical_segments]
    split
    · simp [or_imp, forall_and, hnil]
    · simp
  rw [hround, Path.decode_eq_self_iff,
    hsegs (fun s => decodeUnreservedPercentOctets s = s) decode_nil]
  exact forall₂_congr fun s _ => decode_decode_iff s

end Crawlrs.Url
