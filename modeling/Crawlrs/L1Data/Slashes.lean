import Crawlrs.L1Data.Segments

/-!
# Runs of slashes in a path (`collapse_path_slashes`)

The text is split at `://` and repeated slashes are dropped in what is between.
On the segments of a path (`collapsePathSlashes_str`) this drops the empty ones,
except the last and up to two after a segment that ends in `:`.

Removing dot segments never brings a run of slashes back: `open_pathState`.
-/
namespace Crawlrs.Url

/-- `path.split("://")`. -/
def splitScheme : List Char → List (List Char)
  | ':' :: '/' :: '/' :: rest => [] :: splitScheme rest
  | c :: rest => (splitScheme rest).modifyHead (List.cons c)
  | [] => [[]]

/-- The loop over the characters of one chunk. -/
def collapseChunk (prevSlash : Bool) : List Char → List Char
  | [] => []
  | c :: rest =>
    if c == '/' then
      if prevSlash then collapseChunk true rest else c :: collapseChunk true rest
    else c :: collapseChunk false rest

def joinScheme : List (List Char) → List Char
  | [] => []
  | [chunk] => chunk
  | chunk :: chunks => chunk ++ ':' :: '/' :: '/' :: joinScheme chunks

def containsDoubleSlash : List Char → Bool
  | '/' :: '/' :: _ => true
  | _ :: rest => containsDoubleSlash rest
  | [] => false

/-- mirrors crates/crawlrs-core/src/url.rs:210-234 -/
def collapsePathSlashes (path : List Char) : List Char :=
  if containsDoubleSlash path then joinScheme ((splitScheme path).map (collapseChunk false))
  else path

/-! ## In one pass -/

/-- `prev`: the character before was a slash, and no `://` ended there. -/
def collapseFrom (prev : Bool) : List Char → List Char
  | ':' :: '/' :: '/' :: rest => ':' :: '/' :: '/' :: collapseFrom false rest
  | c :: rest =>
    if c == '/' then
      if prev then collapseFrom true rest else c :: collapseFrom true rest
    else c :: collapseFrom false rest
  | [] => []

theorem collapseFrom_nil (prev : Bool) : collapseFrom prev [] = [] := rfl

theorem collapseFrom_scheme (prev : Bool) (rest : List Char) :
    collapseFrom prev (':' :: '/' :: '/' :: rest) = ':' :: '/' :: '/' :: collapseFrom false rest := rfl

theorem collapseFrom_slash (prev : Bool) (rest : List Char) :
    collapseFrom prev ('/' :: rest) =
      if prev then collapseFrom true rest else '/' :: collapseFrom true rest := by
  rw [collapseFrom]
  · rfl
  · intro rest' h
    exact absurd h (by decide)

/-- The text starts with `://`. -/
def startsScheme : List Char → Bool
  | ':' :: '/' :: '/' :: _ => true
  | _ => false

theorem startsScheme_of_ne_colon {c : Char} {rest : List Char} (h : c ≠ ':') :
    startsScheme (c :: rest) = false := by
  unfold startsScheme
  split
  · rename_i he
    cases he
    exact absurd rfl h
  · rfl

theorem startsScheme_of_ne_slash {c d : Char} {rest : List Char} (h : d ≠ '/') :
    startsScheme (c :: d :: rest) = false := by
  unfold startsScheme
  split
  · rename_i he
    cases he
    exact absurd rfl h
  · rfl

theorem collapseFrom_other (prev : Bool) {c : Char} {rest : List Char} (hc : c ≠ '/')
    (h : startsScheme (c :: rest) = false) :
    collapseFrom prev (c :: rest) = c :: collapseFrom false rest := by
  rw [collapseFrom.eq_def]
  split
  · rename_i rest' he
    cases he
    cases h
  · rename_i d rest' _ he
    cases he
    simp [hc]
  · rename_i he
    cases he

/-- Only a slash looks back. -/
theorem collapseFrom_prev (prev : Bool) {c : Char} (hc : c ≠ '/') (rest : List Char) :
    collapseFrom prev (c :: rest) = collapseFrom false (c :: rest) := by
  cases h : startsScheme (c :: rest) with
  | false => rw [collapseFrom_other prev hc h, collapseFrom_other false hc h]
  | true =>
    unfold startsScheme at h
    split at h
    · rename_i he
      cases he
      rfl
    · cases h

theorem joinScheme_cons (c : Char) (chunk : List Char) (chunks : List (List Char)) :
    joinScheme ((c :: chunk) :: chunks) = c :: joinScheme (chunk :: chunks) := by
  cases chunks <;> rfl

theorem splitScheme_ne (path : List Char) : splitScheme path ≠ [] := by
  fun_induction splitScheme path with
  | case1 rest ih => simp
  | case2 c rest _ ih => simpa using ih
  | case3 => simp

theorem joinScheme_collapse (path : List Char) : ∀ prev chunk chunks,
    splitScheme path = chunk :: chunks →
    joinScheme (collapseChunk prev chunk :: chunks.map (collapseChunk false)) =
      collapseFrom prev path := by
  fun_induction splitScheme path with
  | case1 rest ih =>
    intro prev chunk chunks h
    cases h
    obtain ⟨head, tail, ht⟩ := List.exists_cons_of_ne_nil (splitScheme_ne rest)
    rw [ht, List.map_cons, collapseFrom_scheme, ← ih false head tail ht]
    rfl
  | case2 c rest hne ih =>
    intro prev chunk chunks h
    obtain ⟨head, tail, ht⟩ := List.exists_cons_of_ne_nil (splitScheme_ne rest)
    rw [ht, List.modifyHead_cons] at h
    cases h
    by_cases hc : c = '/'
    · subst hc
      rw [collapseFrom_slash, ← ih true head chunks ht]
      cases prev with
      | true => rfl
      | false => exact joinScheme_cons _ _ _
    · have hs : startsScheme (c :: rest) = false := by
        unfold startsScheme
        split
        · rename_i rest' he
          cases he
          exact (hne rest' rfl rfl).elim
        · rfl
      rw [collapseFrom_other prev hc hs, ← ih false head chunks ht]
      simp only [collapseChunk, beq_iff_eq, hc, if_false]
      exact joinScheme_cons _ _ _
  | case3 =>
    intro prev chunk chunks h
    cases h
    rfl

/-- The short cut for a text without `//`. -/
theorem collapseFrom_of_not_contains (path : List Char) : ∀ prev : Bool,
    containsDoubleSlash (if prev then '/' :: path else path) = false →
    collapseFrom prev path = path := by
  induction path with
  | nil => exact fun _ _ => rfl
  | cons c rest ih =>
    intro prev h
    by_cases hc : c = '/'
    · subst hc
      cases prev with
      | true => cases h
      | false =>
        rw [collapseFrom_slash]
        simp only [Bool.false_eq_true, if_false, List.cons.injEq, true_and]
        exact ih true h
    · have hrest : containsDoubleSlash (c :: rest) = false := by
        cases prev with
        | false => exact h
        | true =>
          simp only [if_true] at h
          rw [containsDoubleSlash] at h
          · exact h
          · intro _ _ he
            cases he
            exact hc rfl
      have hrest : containsDoubleSlash rest = false := by
        rw [containsDoubleSlash] at hrest
        · exact hrest
        · intro _ he
          exact absurd he hc
      have hs : startsScheme (c :: rest) = false := by
        unfold startsScheme
        split
        · rename_i rest' he
          cases he
          cases hrest
        · rfl
      rw [collapseFrom_other prev hc hs, ih false hrest]

theorem collapsePathSlashes_eq (path : List Char) :
    collapsePathSlashes path = collapseFrom false path := by
  unfold collapsePathSlashes
  split
  · obtain ⟨chunk, chunks, h⟩ := List.exists_cons_of_ne_nil (splitScheme_ne path)
    rw [h, List.map_cons, joinScheme_collapse path false chunk chunks h]
  · rename_i h
    exact (collapseFrom_of_not_contains path false (by simpa using h)).symm

/-! ## On segments -/

/-- Where the text stands after a slash: at the end of `:/`, of `://`, or elsewhere. -/
inductive After
  | slash
  | colonSlash
  | scheme
deriving DecidableEq

/-- The next segment and its slash. -/
def After.next (st : After) (s : Segment) : After :=
  if s = [] then
    match st with
    | .slash => .slash
    | .colonSlash => .scheme
    | .scheme => .slash
  else if s.getLast? = some ':' then .colonSlash
  else .slash

/-- An empty segment is dropped after a slash that is not the first of a `://`, or the one behind it;
the last segment stays. -/
def collapseSegments (st : After) : List Segment → List Segment
  | [] => []
  | s :: rest =>
    if s = [] ∧ rest ≠ [] ∧ st = .slash then collapseSegments .slash rest
    else s :: collapseSegments (st.next s) rest

theorem collapseSegments_ne {st : After} {segs : List Segment} (h : segs ≠ []) :
    collapseSegments st segs ≠ [] := by
  induction segs generalizing st with
  | nil => exact absurd rfl h
  | cons s rest ih =>
    rw [collapseSegments]
    split
    · rename_i hdrop
      exact ih hdrop.2.1
    · simp

theorem mem_collapseSegments {st : After} {segs : List Segment} {s : Segment}
    (h : s ∈ collapseSegments st segs) : s ∈ segs := by
  induction segs generalizing st with
  | nil => exact h
  | cons t rest ih =>
    rw [collapseSegments] at h
    split at h
    · exact List.mem_cons_of_mem _ (ih h)
    · rcases List.mem_cons.1 h with rfl | h
      · exact List.mem_cons_self
      · exact List.mem_cons_of_mem _ (ih h)

/-- A segment and what follows it. -/
theorem collapseFrom_segment {s t : List Char} (hs : ∀ c ∈ s, c ≠ '/') (hne : s ≠ [])
    (prev : Bool) :
    collapseFrom prev (s ++ t) =
      if s.getLast? = some ':' then s.dropLast ++ collapseFrom false (':' :: t)
      else s ++ collapseFrom false t := by
  induction s generalizing prev with
  | nil => exact absurd rfl hne
  | cons c s ih =>
    have hc : c ≠ '/' := hs c List.mem_cons_self
    by_cases hnil : s = []
    · subst hnil
      by_cases hcolon : c = ':'
      · subst hcolon
        exact collapseFrom_prev prev hc t
      · simp [collapseFrom_other prev hc (startsScheme_of_ne_colon hcolon), hcolon]
    · obtain ⟨d, s', rfl⟩ := List.exists_cons_of_ne_nil hnil
      have hstart : startsScheme (c :: (d :: s' ++ t)) = false :=
        startsScheme_of_ne_slash (hs d (by simp))
      rw [List.cons_append, collapseFrom_other prev hc hstart,
        ih (fun x hx => hs x (List.mem_cons_of_mem _ hx)) hnil false]
      simp only [List.getLast?_cons_cons, List.dropLast_cons_cons]
      split <;> rfl

theorem getLast_append_dropLast {s : List Char} (h : s.getLast? = some ':') (t : List Char) :
    s.dropLast ++ ':' :: t = s ++ t := by
  obtain ⟨s', rfl⟩ := List.getLast?_eq_some_iff.1 h
  simp

theorem collapseFrom_noSlash {s : List Char} (hs : ∀ c ∈ s, c ≠ '/') (prev : Bool) :
    collapseFrom prev s = s := by
  by_cases hne : s = []
  · subst hne
    rfl
  · have h := collapseFrom_segment (t := []) hs hne prev
    rw [List.append_nil] at h
    rw [h]
    split
    · rename_i hlast
      have hcolon : collapseFrom false [':'] = [':'] := rfl
      simpa [hcolon] using getLast_append_dropLast hlast []
    · simp [collapseFrom_nil]

/-- After `:/`, where no slash follows. -/
theorem collapseFrom_colonSlash {t : List Char} (h : t.head? ≠ some '/') :
    collapseFrom false (':' :: '/' :: t) = ':' :: '/' :: collapseFrom true t := by
  have hs : startsScheme (':' :: '/' :: t) = false := by
    unfold startsScheme
    split
    · rename_i he
      cases he
      exact absurd rfl h
    · rfl
  rw [collapseFrom_other false (by decide) hs, collapseFrom_slash]
  rfl

/-- What the pass makes of a path after its first slash, by where it stands. -/
theorem collapse_joinTail (segs : List Segment) (hne : segs ≠ [])
    (h : ∀ s ∈ segs, ∀ c ∈ s, c ≠ '/') :
    collapseFrom true (joinTail segs) = joinTail (collapseSegments .slash segs) ∧
    collapseFrom false (joinTail segs) = joinTail (collapseSegments .scheme segs) ∧
    collapseFrom false (':' :: '/' :: joinTail segs) =
      ':' :: '/' :: joinTail (collapseSegments .colonSlash segs) := by
  induction segs with
  | nil => exact absurd rfl hne
  | cons s rest ih =>
    have hs : ∀ c ∈ s, c ≠ '/' := h s List.mem_cons_self
    have hhead : ∀ t, s ≠ [] → (s ++ t).head? ≠ some '/' := by
      intro t hsne he
      obtain ⟨c, s', rfl⟩ := List.exists_cons_of_ne_nil hsne
      exact hs c List.mem_cons_self (by simpa using he)
    by_cases hr : rest = []
    · subst hr
      have hlast : ∀ st, collapseSegments st [s] = [s] := by simp [collapseSegments]
      have hs0 : s.head? ≠ some '/' := fun he => hs '/' (List.mem_of_mem_head? he) rfl
      simp only [hlast, joinTail_singleton, collapseFrom_noSlash hs, collapseFrom_colonSlash hs0, and_self]
    · obtain ⟨ih1, ih2, ih3⟩ := ih hr fun t ht => h t (List.mem_cons_of_mem _ ht)
      by_cases hsne : s = []
      · subst hsne
        have hcons : ∀ st, joinTail ([] :: collapseSegments st rest) =
            '/' :: joinTail (collapseSegments st rest) := fun st => by
          rw [joinTail_cons [] (collapseSegments_ne hr), List.nil_append]
        rw [joinTail_cons [] hr, List.nil_append]
        refine ⟨?_, ?_, ?_⟩
        · rw [collapseFrom_slash, if_pos rfl, ih1, collapseSegments, if_pos ⟨rfl, hr, rfl⟩]
        · rw [collapseFrom_slash, if_neg (by decide), ih1, collapseSegments,
            if_neg (by simp), hcons]
          rfl
        · rw [collapseFrom_scheme, ih2, collapseSegments, if_neg (by simp), hcons]
          rfl
      · have hnext : ∀ st : After, collapseSegments st (s :: rest) =
            s :: collapseSegments (After.next .slash s) rest := by
          intro st
          simp [collapseSegments, After.next, hsne]
        have hpass : ∀ prev, collapseFrom prev (s ++ '/' :: joinTail rest) =
            s ++ '/' :: joinTail (collapseSegments (After.next .slash s) rest) := by
          intro prev
          rw [collapseFrom_segment hs hsne prev]
          split
          · rename_i hlast
            rw [ih3, getLast_append_dropLast hlast]
            simp [After.next, hsne, hlast]
          · rename_i hlast
            rw [collapseFrom_slash, if_neg (by decide), ih1]
            simp [After.next, hsne, hlast]
        simp only [hnext, joinTail_cons s hr, joinTail_cons s (collapseSegments_ne hr), hpass,
          collapseFrom_colonSlash (hhead _ hsne), and_self]

theorem collapsePathSlashes_str (p : Path) :
    collapsePathSlashes p.str = '/' :: joinTail (collapseSegments .slash p.segments) := by
  have hslash : ∀ s ∈ p.segments, ∀ c ∈ s, c ≠ '/' := by
    rintro s hs c hc rfl
    exact absurd (p.chars s hs '/' hc).2 (by decide)
  rw [collapsePathSlashes_eq, Path.str, collapseFrom_slash, if_neg (by decide),
    (collapse_joinTail p.segments p.ne hslash).1]

/-! ## What stays collapsed -/

/-- Every empty segment, and its slash, is kept. -/
def Open (st : After) : List Segment → Prop
  | [] => True
  | s :: rest => (s = [] → st ≠ .slash) ∧ Open (st.next s) rest

theorem open_append {st : After} {a b : List Segment} :
    Open st (a ++ b) ↔ Open st a ∧ Open (a.foldl After.next st) b := by
  induction a generalizing st with
  | nil => simp [Open]
  | cons s a ih => simp [Open, ih, and_assoc]

theorem Open.dropLast {st : After} {segs : List Segment} (h : Open st segs) : Open st segs.dropLast := by
  by_cases hne : segs = []
  · subst hne
    exact h
  · rw [← List.dropLast_append_getLast hne] at h
    exact (open_append.1 h).1

theorem open_collapseSegments (st : After) (segs : List Segment) :
    Open st (collapseSegments st segs).dropLast := by
  induction segs generalizing st with
  | nil => trivial
  | cons s rest ih =>
    rw [collapseSegments]
    split
    · rename_i hdrop
      rw [hdrop.2.2]
      exact ih .slash
    · rename_i hkeep
      by_cases hr : rest = []
      · subst hr
        trivial
      · rw [List.dropLast_cons_of_ne_nil (collapseSegments_ne hr)]
        exact ⟨fun hs hst => hkeep ⟨hs, hr, hst⟩, ih _⟩

/-- A path that is collapsed stays as it is. -/
theorem collapseSegments_of_open {st : After} {segs : List Segment} (h : Open st segs.dropLast) :
    collapseSegments st segs = segs := by
  induction segs generalizing st with
  | nil => rfl
  | cons s rest ih =>
    by_cases hr : rest = []
    · subst hr
      simp [collapseSegments]
    · rw [List.dropLast_cons_of_ne_nil hr] at h
      rw [collapseSegments, if_neg fun hdrop => h.1 hdrop.1 hdrop.2.2, ih h.2]

theorem next_of_dot {s : Segment} (h : isDoubleDot s = true ∨ isSingleDot s = true) (st : After) :
    st.next s = .slash := by
  obtain ⟨hne, hlast⟩ := dot_ne_nil h
  simp [After.next, hne, hlast]

/-- Dot segments take nothing away that a slash needs: `st` is where the text stood before they were
removed, which is the place the kept segments lead to unless a dot segment was the last. -/
theorem open_pathState (segs : List Segment) (hne : segs ≠ []) (out : List Segment) :
    ∀ st, Open .slash out → Open st segs.dropLast →
      out.foldl After.next .slash = st ∨ st = .slash → Open .slash (pathState out segs).dropLast := by
  refine pathState_induction (P := fun out segs => ∀ st, Open .slash out → Open st segs.dropLast →
    out.foldl After.next .slash = st ∨ st = .slash → Open .slash (pathState out segs).dropLast)
    ?_ ?_ ?_ ?_ segs hne out
  · intro out s st hout _ _
    simp only [pathState]
    split
    · simpa using hout.dropLast
    · split <;> simpa using hout
  · intro out s rest hr hd ih st hout hseg _
    rw [List.dropLast_cons_of_ne_nil hr] at hseg
    rw [pathState_cons out s hr, if_pos hd]
    exact ih _ hout.dropLast hseg.2 (Or.inr (next_of_dot (Or.inl hd) st))
  · intro out s rest hr hd hs ih st hout hseg _
    rw [List.dropLast_cons_of_ne_nil hr] at hseg
    simp only [pathState_cons out s hr, hd, hs, Bool.false_eq_true, if_false, if_true]
    exact ih _ hout hseg.2 (Or.inr (next_of_dot (Or.inr hs) st))
  · intro out s rest hr hd hs ih st hout hseg hst
    rw [List.dropLast_cons_of_ne_nil hr] at hseg
    simp only [pathState_cons out s hr, hd, hs, Bool.false_eq_true, if_false]
    by_cases hsne : s = []
    · have hst : out.foldl After.next .slash = st := hst.resolve_right (hseg.1 hsne)
      refine ih _ (open_append.2 ⟨hout, ?_, trivial⟩) hseg.2 (Or.inl ?_)
      · rw [hst]
        exact hseg.1
      · rw [List.foldl_append, hst]
        rfl
    · refine ih _ (open_append.2 ⟨hout, fun he => absurd he hsne, trivial⟩) hseg.2 (Or.inl ?_)
      rw [List.foldl_append]
      simp [After.next, hsne]

end Crawlrs.Url
