import Mathlib.Data.List.Basic
import Mathlib.Data.List.DropRight

/-!
# Runs of elements that count as one separator

`squeeze p sep l` is `l` with every maximal run of elements that satisfy `p`
replaced by one `sep`, and `trim p` takes such elements off both ends.
`emit` computes the two at once, reading from left to right with one flag: it can
be fed a list in pieces (`emit_append`), and once a last separator is dropped what
it wrote is `trim p (squeeze p sep l)` (`trimmed_emit`).
-/
namespace Crawlrs.Runs

variable {α : Type} {p : α → Bool} {sep : α}

/-- Every maximal run of `p` becomes one `sep`. -/
def squeeze (p : α → Bool) (sep : α) : List α → List α
  | [] => []
  | c :: rest => if p c then sep :: squeeze p sep (rest.dropWhile p) else c :: squeeze p sep rest
termination_by l => l.length
decreasing_by
  · have := (List.dropWhile_suffix p (l := rest)).length_le
    simp only [List.length_cons]
    omega
  · simp

def trim (p : α → Bool) (l : List α) : List α := (l.dropWhile p).rdropWhile p

/-- The two ends can be trimmed in either order. -/
theorem dropWhile_rdropWhile (p : α → Bool) (l : List α) : (l.rdropWhile p).dropWhile p = trim p l := by
  unfold trim
  induction l using List.reverseRecOn with
  | nil => rfl
  | append_singleton l x ih =>
    cases hx : p x with
    | true =>
      rw [List.rdropWhile_concat_pos p l x hx, ih, List.dropWhile_append]
      by_cases hl : l.dropWhile p = []
      · simp [hl, hx]
      · rw [if_neg (by simpa using hl), List.rdropWhile_concat_pos _ _ _ hx]
    | false =>
      have hx' : ¬ p x = true := by simp [hx]
      rw [List.rdropWhile_concat_neg p l x hx', List.dropWhile_append]
      by_cases hl : l.dropWhile p = []
      · simp [hl, hx, List.rdropWhile_singleton]
      · rw [if_neg (by simpa using hl), List.rdropWhile_concat_neg _ _ _ hx']

/-- `last`: the element before satisfied `p`, or there was none. -/
def emit (p : α → Bool) (sep : α) (last : Bool) : List α → List α
  | [] => []
  | c :: rest =>
    if p c then
      if last then emit p sep true rest else sep :: emit p sep true rest
    else c :: emit p sep false rest

/-- The flag after a piece. -/
def lastAfter (p : α → Bool) (last : Bool) (l : List α) : Bool := l.foldl (fun _ c => p c) last

/-- A list can be read in pieces. -/
theorem emit_append (last : Bool) (a b : List α) :
    emit p sep last (a ++ b) = emit p sep last a ++ emit p sep (lastAfter p last a) b := by
  induction a generalizing last with
  | nil => rfl
  | cons c a ih =>
    have hlast : lastAfter p last (c :: a) = lastAfter p (p c) a := rfl
    rw [List.cons_append, emit, emit, hlast]
    cases hc : p c with
    | false => simp [ih]
    | true => cases last <;> simp [ih]

/-! ## What is written -/

/-- After a separator the next run is passed over. -/
theorem emit_true (l : List α) : emit p sep true l = emit p sep false (l.dropWhile p) := by
  induction l with
  | nil => rfl
  | cons c rest ih =>
    cases hc : p c with
    | true => simp [emit, hc, ih]
    | false => simp [emit, hc]

theorem emit_false (l : List α) : emit p sep false l = squeeze p sep l := by
  induction h : l.length using Nat.strongRecOn generalizing l with
  | ind n ih =>
    cases l with
    | nil => simp [emit, squeeze]
    | cons c rest =>
      have hlen := (List.dropWhile_suffix p (l := rest)).length_le
      simp only [List.length_cons] at h
      rw [emit, squeeze]
      cases hc : p c with
      | true => simp [emit_true, ih _ (by omega) (rest.dropWhile p) rfl]
      | false => simp [ih _ (by omega) rest rfl]

/-- The first element of a squeezed list that does not start with a run. -/
theorem squeeze_dropWhile (hsep : p sep = true) (l : List α) :
    (squeeze p sep l).dropWhile p = squeeze p sep (l.dropWhile p) := by
  cases l with
  | nil => simp [squeeze]
  | cons c rest =>
    cases hc : p c with
    | false => simp [squeeze, hc]
    | true =>
      have hrest : (squeeze p sep (rest.dropWhile p)).dropWhile p = squeeze p sep (rest.dropWhile p) := by
        cases hd : rest.dropWhile p with
        | nil => simp [squeeze]
        | cons d rest' =>
          have hpd : p d = false := by
            have := List.head?_dropWhile_not p rest
            simpa [hd] using this
          simp [squeeze, hpd]
      simp [squeeze, hc, hsep, hrest]

/-- The end of what was written, by the flag: nothing or a separator that nothing of `p` is before, or
an element that is kept. -/
theorem emit_end (hsep : p sep = true) (l : List α) :
    if lastAfter p true l then
      (emit p sep true l = [] ∨ (emit p sep true l).getLast? = some sep) ∧
        (emit p sep true l).rdropWhile p = (emit p sep true l).dropLast
    else (emit p sep true l).getLast? ≠ some sep ∧
      (emit p sep true l).rdropWhile p = emit p sep true l := by
  induction l using List.reverseRecOn with
  | nil => simp [lastAfter, emit]
  | append_singleton l c ih =>
    have hflag : lastAfter p true (l ++ [c]) = p c := by simp [lastAfter]
    rw [hflag, emit_append]
    cases hc : p c with
    | false =>
      have hne : c ≠ sep := by
        rintro rfl
        rw [hsep] at hc
        cases hc
      have hone : emit p sep (lastAfter p true l) [c] = [c] := by simp [emit, hc]
      simp [hone, hne, hc]
    | true =>
      cases hl : lastAfter p true l with
      | true =>
        have hone : emit p sep true [c] = [] := by simp [emit, hc]
        rw [hl, if_pos rfl] at ih
        simpa [hone] using ih
      | false =>
        have hone : emit p sep false [c] = [sep] := by simp [emit, hc]
        rw [hl, if_neg (by decide)] at ih
        simp [hone, hsep, ih.2]

/-- What is left when a last separator is dropped. -/
theorem trimmed_emit [DecidableEq α] (hsep : p sep = true) (l : List α) :
    (if (emit p sep true l).getLast? = some sep then (emit p sep true l).dropLast else emit p sep true l) =
      trim p (squeeze p sep l) := by
  have htrim : trim p (squeeze p sep l) = (emit p sep true l).rdropWhile p := by
    rw [trim, squeeze_dropWhile hsep, emit_true, emit_false]
  have hend := emit_end hsep l
  rw [htrim]
  split at hend
  · obtain ⟨hnil | hlast, hdrop⟩ := hend
    · simp [hnil]
    · rw [if_pos hlast, hdrop]
  · rw [if_neg hend.1, hend.2]

end Crawlrs.Runs
