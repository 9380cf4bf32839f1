import Crawlrs.L1Data.Slashes
import Mathlib.Data.List.Infix
import Mathlib.Logic.Relation

/-!
# What `collapse_path_slashes` promises of every text

The chunks between `://` are collapsed each on its own, so the first slash of a
chunk is kept although the chunk follows two. A text is collapsed as far as the
function says exactly where no third slash follows a `://`:
`slashesCollapsed_iff`. Everything else it does for every text: a second pass
changes nothing (`collapseFrom_collapseFrom`), the other characters stay
(`others_collapseFrom`) and so does every `://` (`collapseFrom_append_scheme`).
-/
namespace Crawlrs.Url

/-! ## One pass -/

/-- After a slash that is not the end of a `://` no slash is written. -/
theorem head_collapseFrom_true (s : List Char) : (collapseFrom true s).head? ≠ some '/' := by
  induction s with
  | nil => exact fun h => by cases h
  | cons c rest ih =>
    by_cases hc : c = '/'
    · subst hc
      rw [collapseFrom_slash, if_pos rfl]
      exact ih
    · cases h : startsScheme (c :: rest) with
      | false =>
        rw [collapseFrom_other true hc h]
        simpa using hc
      | true =>
        rw [collapseFrom_prev true hc]
        unfold startsScheme at h
        split at h
        · rename_i he
          cases he
          exact by simp [collapseFrom_scheme]
        · cases h

theorem head_collapseFrom_false {s : List Char} (h : s.head? ≠ some '/') :
    (collapseFrom false s).head? ≠ some '/' := by
  cases s with
  | nil => exact h
  | cons c rest =>
    have hc : c ≠ '/' := fun hc => h (by rw [hc]; rfl)
    rw [← collapseFrom_prev true hc]
    exact head_collapseFrom_true (c :: rest)

/-- Induction along the pass. -/
theorem collapse_induction {P : Bool → List Char → Prop} (nil : ∀ prev, P prev [])
    (scheme : ∀ prev rest, P false rest → P prev (':' :: '/' :: '/' :: rest))
    (slash : ∀ prev rest, P true rest → P prev ('/' :: rest))
    (other : ∀ prev c rest, c ≠ '/' → startsScheme (c :: rest) = false → P false rest →
      P prev (c :: rest)) (prev : Bool) (s : List Char) : P prev s := by
  fun_induction collapseFrom prev s with
  | case1 prev rest ih => exact scheme prev rest ih
  | case2 c rest hne hc ih =>
    cases beq_iff_eq.1 hc
    exact slash _ _ ih
  | case3 prev c rest hne hc hprev ih =>
    cases beq_iff_eq.1 hc
    exact slash _ _ ih
  | case4 prev c rest hne hc ih =>
    refine other prev c rest (by simpa using hc) ?_ ih
    unfold startsScheme
    split
    · rename_i rest' he
      cases he
      exact (hne rest' rfl rfl).elim
    · rfl
  | case5 prev => exact nil prev

/-- A second pass changes nothing. -/
theorem collapseFrom_collapseFrom (prev : Bool) (s : List Char) :
    collapseFrom prev (collapseFrom prev s) = collapseFrom prev s := by
  refine collapse_induction (P := fun prev s =>
    collapseFrom prev (collapseFrom prev s) = collapseFrom prev s) ?_ ?_ ?_ ?_ prev s
  · exact fun _ => rfl
  · intro prev rest ih
    rw [collapseFrom_scheme, collapseFrom_scheme, ih]
  · intro prev rest ih
    rw [collapseFrom_slash]
    cases prev with
    | true => exact ih
    | false =>
      simp only [Bool.false_eq_true, if_false]
      rw [collapseFrom_slash, if_neg (by decide), ih]
  · intro prev c rest hc hs ih
    rw [collapseFrom_other prev hc hs, collapseFrom_other prev hc, ih]
    -- two slashes in a row are only written behind a colon
    unfold startsScheme
    split
    · rename_i rest' he
      simp only [List.cons.injEq] at he
      obtain ⟨rfl, he⟩ := he
      cases rest with
      | nil => cases he
      | cons d rest =>
        by_cases hd : d = '/'
        · subst hd
          rw [collapseFrom_slash, if_neg (by decide)] at he
          exact absurd (by rw [(List.cons.inj he).2]; rfl) (head_collapseFrom_true rest)
        · have hhead := head_collapseFrom_false (s := d :: rest) (by simpa using hd)
          exact absurd (by rw [he]; rfl) hhead
    · rfl

def others (s : List Char) : List Char := s.filter (· != '/')

/-- The other characters stay. -/
theorem others_collapseFrom (prev : Bool) (s : List Char) : others (collapseFrom prev s) = others s := by
  refine collapse_induction (P := fun prev s => others (collapseFrom prev s) = others s)
    ?_ ?_ ?_ ?_ prev s
  · exact fun _ => rfl
  · intro prev rest ih
    rw [collapseFrom_scheme]
    simpa [others] using ih
  · intro prev rest ih
    rw [collapseFrom_slash]
    cases prev <;> simpa [others] using ih
  · intro prev c rest hc hs ih
    rw [collapseFrom_other prev hc hs]
    simpa [others, List.filter_cons, hc] using ih

/-- Nothing that follows makes a `://` of a text that does not start with one, unless its own end does. -/
theorem startsScheme_append {c d : Char} {rest t : List Char} (h : startsScheme (c :: rest) = false)
    (hend : (c :: rest).getLast? = some ':' ∨ (c :: rest).getLast? = some '/' → d ≠ '/') :
    startsScheme (c :: rest ++ d :: t) = false := by
  match c, rest with
  | c, [] =>
    by_cases hc : c = ':'
    · subst hc
      exact startsScheme_of_ne_slash (hend (Or.inl rfl))
    · exact startsScheme_of_ne_colon hc
  | c, [e] =>
    by_cases he : e = '/'
    · subst he
      have hd : d ≠ '/' := hend (Or.inr rfl)
      unfold startsScheme
      split
      · rename_i he
        cases he
        exact absurd rfl hd
      · rfl
    · exact startsScheme_of_ne_slash he
  | c, e :: f :: rest =>
    unfold startsScheme at h ⊢
    split at h
    · cases h
    · rename_i hne
      split
      · rename_i he
        cases he
        exact absurd rfl (hne rest)
      · rfl

/-- A `://` stays where it is between the other characters. -/
theorem collapseFrom_append_scheme (prev : Bool) (a b : List Char) :
    collapseFrom prev (a ++ ':' :: '/' :: '/' :: b) =
      collapseFrom prev a ++ ':' :: '/' :: '/' :: collapseFrom false b := by
  refine collapse_induction (P := fun prev a => collapseFrom prev (a ++ ':' :: '/' :: '/' :: b) =
    collapseFrom prev a ++ ':' :: '/' :: '/' :: collapseFrom false b) ?_ ?_ ?_ ?_ prev a
  · exact fun _ => rfl
  · intro prev rest ih
    rw [collapseFrom_scheme, List.cons_append, List.cons_append, List.cons_append,
      collapseFrom_scheme, ih]
    rfl
  · intro prev rest ih
    rw [List.cons_append, collapseFrom_slash, collapseFrom_slash, ih]
    cases prev <;> rfl
  · intro prev c rest hc hs ih
    have happ := startsScheme_append (d := ':') (t := '/' :: '/' :: b) hs (fun _ => by decide)
    rw [List.cons_append] at happ ⊢
    rw [collapseFrom_other prev hc happ, collapseFrom_other prev hc hs, ih]
    rfl

/-! ## Runs -/

/-- Every two slashes in a row follow a colon; `prev` is the character before the text. -/
def Paired (prev : Char) : List Char → Prop
  | [] => True
  | c :: rest => (c = '/' → rest.head? = some '/' → prev = ':') ∧ Paired c rest

theorem Paired.colon {prev : Char} {a b : List Char} (h : Paired prev (a ++ '/' :: '/' :: b)) :
    (prev :: a).getLast? = some ':' := by
  induction a generalizing prev with
  | nil =>
    have hprev : prev = ':' := h.1 rfl rfl
    rw [hprev]
    rfl
  | cons c a ih =>
    rw [List.getLast?_cons_cons]
    exact ih h.2

/-- A third slash behind a `://`. -/
def TripleSlash (s : List Char) : Prop := [':', '/', '/', '/'] <:+: s

theorem not_tripleSlash_tail {c : Char} {rest : List Char} (h : ¬ TripleSlash (c :: rest)) :
    ¬ TripleSlash rest := fun hr => h (List.infix_cons hr)

theorem head_of_not_tripleSlash {rest : List Char} (h : ¬ TripleSlash (':' :: '/' :: '/' :: rest)) :
    rest.head? ≠ some '/' := by
  intro hhead
  cases rest with
  | nil => cases hhead
  | cons c rest =>
    cases hhead
    exact h ⟨[], rest, rfl⟩

theorem paired_collapseFrom (prev : Bool) (s : List Char) :
    ∀ c, ¬ TripleSlash s → Paired c (collapseFrom prev s) := by
  refine collapse_induction (P := fun prev s => ∀ c, ¬ TripleSlash s → Paired c (collapseFrom prev s))
    ?_ ?_ ?_ ?_ prev s
  · exact fun _ _ _ => trivial
  · intro prev rest ih c h
    have hhead := head_collapseFrom_false (head_of_not_tripleSlash h)
    have hrest := not_tripleSlash_tail (not_tripleSlash_tail (not_tripleSlash_tail h))
    rw [collapseFrom_scheme]
    refine ⟨fun hc => absurd hc (by decide), fun _ _ => rfl, fun _ ht => absurd ht hhead, ?_⟩
    exact ih '/' hrest
  · intro prev rest ih c h
    have hrest := not_tripleSlash_tail h
    rw [collapseFrom_slash]
    cases prev with
    | true => exact ih c hrest
    | false => exact ⟨fun _ ht => absurd ht (head_collapseFrom_true rest), ih '/' hrest⟩
  · intro prev d rest hd hs ih c h
    rw [collapseFrom_other prev hd hs]
    exact ⟨fun he => absurd he hd, ih d (not_tripleSlash_tail h)⟩

/-- Every maximal run of two slashes or more follows a colon and has exactly two. -/
def RunsPaired (s : List Char) : Prop := ∀ a n b, s = a ++ (List.replicate n '/' ++ b) →
  a.getLast? ≠ some '/' → b.head? ≠ some '/' → 2 ≤ n → a.getLast? = some ':' ∧ n = 2

theorem Paired.runs {s : List Char} (h : Paired ' ' s) : RunsPaired s := by
  intro a n b hs ha hb hn
  obtain ⟨k, rfl⟩ : ∃ k, n = k + 2 := ⟨n - 2, by omega⟩
  rw [List.replicate_succ, List.replicate_succ, List.cons_append, List.cons_append] at hs
  have hcolon : ∀ {x : List Char}, (' ' :: x).getLast? = some ':' → x.getLast? = some ':' := by
    intro x hx
    cases x with
    | nil => exact absurd hx (by decide)
    | cons c x => rwa [List.getLast?_cons_cons] at hx
  refine ⟨hcolon (hs ▸ h).colon, ?_⟩
  cases k with
  | zero => rfl
  | succ k =>
    -- the second slash of three would follow a colon as well
    rw [List.replicate_succ, List.cons_append] at hs
    have hsecond : s = (a ++ ['/']) ++ '/' :: '/' :: (List.replicate k '/' ++ b) := by simp [hs]
    have hlast := hcolon (hsecond ▸ h).colon
    simp at hlast

theorem not_runsPaired_of_tripleSlash {p : List Char} (h : TripleSlash p) :
    ¬ RunsPaired (collapseFrom false p) := by
  obtain ⟨a, b, rfl⟩ := h
  intro hruns
  have hform : collapseFrom false (a ++ [':', '/', '/', '/'] ++ b) =
      (collapseFrom false a ++ [':']) ++ (List.replicate 3 '/' ++ collapseFrom true b) := by
    have happ := collapseFrom_append_scheme false a ('/' :: b)
    rw [collapseFrom_slash, if_neg (by decide)] at happ
    simpa [List.replicate] using happ
  have hthree := (hruns _ _ _ hform (by simp) (head_collapseFrom_true b) (by decide)).2
  omega

/-! ## Runs of another length -/

/-- One run of slashes has another length. A run behind a colon is left: it may be a scheme's. -/
def Resized (p q : List Char) : Prop := ∃ a b n m,
  p = a ++ (List.replicate (n + 1) '/' ++ b) ∧ q = a ++ (List.replicate (m + 1) '/' ++ b) ∧
    a.getLast? ≠ some '/' ∧ a.getLast? ≠ some ':'

theorem collapseFrom_replicate (prev : Bool) (n : Nat) (b : List Char) :
    collapseFrom prev (List.replicate (n + 1) '/' ++ b) = collapseFrom prev ('/' :: b) := by
  induction n generalizing prev with
  | zero => rfl
  | succ n ih =>
    rw [List.replicate_succ, List.cons_append, collapseFrom_slash, ih true, collapseFrom_slash,
      if_pos rfl, collapseFrom_slash]

/-- A run after a text that ends in neither a slash nor a colon is one slash. -/
theorem collapseFrom_append_run (prev : Bool) (a : List Char) (n : Nat) (b : List Char) :
    a.getLast? ≠ some '/' → a.getLast? ≠ some ':' →
    collapseFrom prev (a ++ (List.replicate (n + 1) '/' ++ b)) = collapseFrom prev (a ++ '/' :: b) := by
  refine collapse_induction (P := fun prev a => a.getLast? ≠ some '/' → a.getLast? ≠ some ':' →
    collapseFrom prev (a ++ (List.replicate (n + 1) '/' ++ b)) = collapseFrom prev (a ++ '/' :: b))
    ?_ ?_ ?_ ?_ prev a
  · exact fun prev _ _ => collapseFrom_replicate prev n b
  · intro prev rest ih hslash hcolon
    cases rest with
    | nil => exact absurd rfl hslash
    | cons c rest =>
      simp only [List.getLast?_cons_cons] at hslash hcolon ih
      simp only [List.cons_append, collapseFrom_scheme] at ih ⊢
      rw [ih hslash hcolon]
  · intro prev rest ih hslash hcolon
    cases rest with
    | nil => exact absurd rfl hslash
    | cons c rest =>
      simp only [List.getLast?_cons_cons] at hslash hcolon ih
      show collapseFrom prev ('/' :: (c :: rest ++ _)) = collapseFrom prev ('/' :: (c :: rest ++ _))
      rw [collapseFrom_slash, collapseFrom_slash, ih hslash hcolon]
  · intro prev c rest hc hs ih hslash hcolon
    have happ : ∀ t, startsScheme (c :: (rest ++ '/' :: t)) = false := fun t =>
      startsScheme_append hs fun hend => (hend.elim hcolon hslash).elim
    have hrun : startsScheme (c :: (rest ++ (List.replicate (n + 1) '/' ++ b))) = false :=
      happ (List.replicate n '/' ++ b)
    rw [List.cons_append, List.cons_append, collapseFrom_other prev hc hrun,
      collapseFrom_other prev hc (happ b)]
    cases rest with
    | nil => exact congrArg _ (collapseFrom_replicate false n b)
    | cons d rest =>
      simp only [List.getLast?_cons_cons] at hslash hcolon ih
      exact congrArg _ (ih hslash hcolon)

theorem collapse_resized {p q : List Char} (h : Resized p q) :
    collapsePathSlashes p = collapsePathSlashes q := by
  obtain ⟨a, b, n, m, rfl, rfl, hslash, hcolon⟩ := h
  rw [collapsePathSlashes_eq, collapsePathSlashes_eq, collapseFrom_append_run false a n b hslash hcolon,
    collapseFrom_append_run false a m b hslash hcolon]

theorem collapse_alike {p q : List Char} (h : Relation.EqvGen Resized p q) :
    collapsePathSlashes p = collapsePathSlashes q := by
  induction h with
  | rel p q hpq => exact collapse_resized hpq
  | refl p => rfl
  | symm p q _ ih => exact ih.symm
  | trans p q r _ _ ihpq ihqr => exact ihpq.trans ihqr

/-! ## The promise -/

theorem infix_of_containsDoubleSlash {s : List Char} (h : containsDoubleSlash s = true) :
    ['/', '/'] <:+: s := by
  fun_induction containsDoubleSlash s with
  | case1 rest => exact ⟨[], rest, rfl⟩
  | case2 c rest _ ih => exact List.infix_cons (ih h)
  | case3 => cases h

/-- What the function is for, at one text. -/
structure SlashesCollapsed (p : List Char) : Prop where
  twice : collapsePathSlashes (collapsePathSlashes p) = collapsePathSlashes p
  others : others (collapsePathSlashes p) = others p
  /-- A `://` is found in the result between the same characters. -/
  schemes : ∀ a b, p = a ++ ':' :: '/' :: '/' :: b → ∃ a' b',
    collapsePathSlashes p = a' ++ ':' :: '/' :: '/' :: b' ∧ Url.others a' = Url.others a ∧
      Url.others b' = Url.others b
  short : ¬ ['/', '/'] <:+: p → collapsePathSlashes p = p
  runs : RunsPaired (collapsePathSlashes p)
  alike : ∀ q, Relation.EqvGen Resized p q → collapsePathSlashes p = collapsePathSlashes q

/-- A text is collapsed exactly where no third slash follows a `://`. -/
theorem slashesCollapsed_iff (p : List Char) : SlashesCollapsed p ↔ ¬ [':', '/', '/', '/'] <:+: p := by
  constructor
  · intro h htriple
    refine not_runsPaired_of_tripleSlash htriple ?_
    rw [← collapsePathSlashes_eq]
    exact h.runs
  · intro h
    refine ⟨?_, ?_, ?_, ?_, ?_, ?_⟩
    · rw [collapsePathSlashes_eq, collapsePathSlashes_eq, collapseFrom_collapseFrom]
    · rw [collapsePathSlashes_eq, others_collapseFrom]
    · rintro a b rfl
      refine ⟨collapseFrom false a, collapseFrom false b, ?_, others_collapseFrom _ a,
        others_collapseFrom _ b⟩
      rw [collapsePathSlashes_eq, collapseFrom_append_scheme]
    · intro hshort
      rw [collapsePathSlashes, if_neg fun hc => hshort (infix_of_containsDoubleSlash hc)]
    · rw [collapsePathSlashes_eq]
      exact (paired_collapseFrom false p ' ' h).runs
    · exact fun q hq => collapse_alike hq

/-- `/x:///y` keeps its three slashes: the first of the second chunk is written. -/
theorem not_slashesCollapsed : ¬ ∀ p : List Char, SlashesCollapsed p := by
  intro h
  have hrun := (h ['/', 'x', ':', '/', '/', '/', 'y']).runs ['/', 'x', ':'] 3 ['y'] (by decide)
  exact absurd (hrun (by decide) (by decide) (by decide)).2 (by decide)

end Crawlrs.Url
