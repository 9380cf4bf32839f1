import Mathlib.Data.List.DropRight
import Mathlib.Data.List.Nodup

/-!
# Pieces of a list: the last one, and the first of each kind

`lastPiece a l` is the last piece between separators that is not empty, `afterLast a l`
what stands behind the last separator. `firsts key seen l` reads a list once and keeps
the elements whose key is new.

* `lastPiece_eq_some`, `afterLast_eq_some`: both as a way to write `l`.
* `map_firsts`: the keys that are kept are those of the list, each at its first place.
-/
namespace Crawlrs.Pieces

variable {α κ : Type}

section Last

variable [DecidableEq α] {a : α}

/-- `rsplit(a).find(|piece| !piece.is_empty())`. -/
def lastPiece (a : α) (l : List α) : Option (List α) := (l.splitOn a).reverse.find? fun piece => !piece.isEmpty

/-- What is behind `rfind(a)`. -/
def afterLast (a : α) (l : List α) : Option (List α) :=
  if a ∈ l then some (l.rtakeWhile fun x => x ≠ a) else none

/-- A list up to its last `a`, and what is behind it. -/
theorem front_of_rdropWhile (a : α) (l : List α) :
    l.rdropWhile (fun x => x ≠ a) = [] ∨ (l.rdropWhile fun x => x ≠ a).getLast? = some a := by
  by_cases hnil : l.rdropWhile (fun x => x ≠ a) = []
  · exact .inl hnil
  · have hlast := List.rdropWhile_last_not (fun x => decide (x ≠ a)) l hnil
    refine .inr ?_
    rw [List.getLast?_eq_some_getLast hnil]
    simpa using hlast

theorem notMem_rtakeWhile (a : α) (l : List α) : a ∉ l.rtakeWhile fun x => x ≠ a := by
  intro h
  simpa using List.mem_rtakeWhile_imp h

theorem rtakeWhile_append_cons {front s : List α} (hs : a ∉ s) :
    (front ++ a :: s).rtakeWhile (fun x => x ≠ a) = s := by
  have hpos : ∀ x ∈ s.reverse, decide (x ≠ a) = true := by
    intro x hx
    exact decide_eq_true fun hxa => hs (hxa ▸ List.mem_reverse.1 hx)
  rw [List.rtakeWhile, List.reverse_append, List.reverse_cons, List.append_assoc,
    List.takeWhile_append_of_pos hpos]
  simp

theorem afterLast_eq_some {l s : List α} :
    afterLast a l = some s ↔ a ∉ s ∧ ∃ front, l = front ++ a :: s := by
  unfold afterLast
  constructor
  · intro h
    split at h
    · rename_i hmem
      cases h
      refine ⟨notMem_rtakeWhile a l, ?_⟩
      have hcut := List.rdropWhile_append_rtakeWhile (p := fun x => decide (x ≠ a)) (l := l)
      obtain hnil | hlast := front_of_rdropWhile a l
      · rw [hnil, List.nil_append] at hcut
        rw [← hcut] at hmem
        exact absurd hmem (notMem_rtakeWhile a l)
      · obtain ⟨front, hfront⟩ := List.getLast?_eq_some_iff.1 hlast
        refine ⟨front, ?_⟩
        rw [hfront, List.append_assoc, List.singleton_append] at hcut
        exact hcut.symm
    · cases h
  · rintro ⟨hs, front, rfl⟩
    rw [if_pos (by simp), rtakeWhile_append_cons hs]

/-! ## The last piece -/

theorem lastPiece_of_notMem {s : List α} (hne : s ≠ []) (hs : a ∉ s) : lastPiece a s = some s := by
  rw [lastPiece, List.splitOn_eq_singleton hs]
  simp [hne]

theorem lastPiece_append_cons {front s : List α} (hne : s ≠ []) (hs : a ∉ s) :
    lastPiece a (front ++ a :: s) = some s := by
  rw [lastPiece, List.splitOn_append_cons_self, List.splitOn_eq_singleton hs]
  simp [hne]

/-- Separators at the end are passed over. -/
theorem lastPiece_append_replicate (l : List α) (n : Nat) :
    lastPiece a (l ++ List.replicate n a) = lastPiece a l := by
  induction n with
  | zero => simp
  | succ n ih =>
    have hsnoc : l ++ List.replicate (n + 1) a = (l ++ List.replicate n a) ++ a :: [] := by
      rw [List.replicate_succ', List.append_assoc]
    rw [← ih, hsnoc, lastPiece, lastPiece, List.splitOn_append_cons_self]
    simp

theorem rdropWhile_append_replicate (a : α) (l : List α) :
    ∃ n, l = l.rdropWhile (fun x => x = a) ++ List.replicate n a := by
  have hcut := List.rdropWhile_append_rtakeWhile (p := fun x => decide (x = a)) (l := l)
  have hall : ∀ x ∈ l.rtakeWhile (fun x => decide (x = a)), x = a := by
    intro x hx
    simpa using List.mem_rtakeWhile_imp hx
  refine ⟨(l.rtakeWhile fun x => decide (x = a)).length, ?_⟩
  rw [← List.eq_replicate_of_mem hall]
  exact hcut.symm

theorem lastPiece_eq_some {l s : List α} :
    lastPiece a l = some s ↔ s ≠ [] ∧ a ∉ s ∧
      ∃ front n, l = front ++ s ++ List.replicate n a ∧ (front = [] ∨ front.getLast? = some a) := by
  constructor
  · intro h
    obtain ⟨n, hn⟩ := rdropWhile_append_replicate a l
    generalize htext : l.rdropWhile (fun x => decide (x = a)) = text at hn
    by_cases hnil : text = []
    · rw [hn, lastPiece_append_replicate, hnil] at h
      simp [lastPiece] at h
    · have hlast : ¬ text.getLast hnil = a := by
        have := List.rdropWhile_last_not (fun x => decide (x = a)) l (by rw [htext]; exact hnil)
        simpa [htext] using this
      have hne : text.rtakeWhile (fun x => decide (x ≠ a)) ≠ [] := by
        intro hempty
        rw [List.rtakeWhile_eq_nil_iff] at hempty
        exact hempty hnil (decide_eq_true hlast)
      have hs := notMem_rtakeWhile a text
      have hcut := List.rdropWhile_append_rtakeWhile (p := fun x => decide (x ≠ a)) (l := text)
      have hpiece : lastPiece a text = some (text.rtakeWhile fun x => decide (x ≠ a)) := by
        obtain hfront | hfront := front_of_rdropWhile a text
        · rw [hfront, List.nil_append] at hcut
          rw [hcut]
          rw [hcut] at hs
          exact lastPiece_of_notMem hnil hs
        · obtain ⟨front, hfront⟩ := List.getLast?_eq_some_iff.1 hfront
          rw [hfront, List.append_assoc, List.singleton_append] at hcut
          exact (congrArg (lastPiece a) hcut.symm).trans (lastPiece_append_cons hne hs)
      rw [hn, lastPiece_append_replicate, hpiece] at h
      cases h
      refine ⟨hne, hs, text.rdropWhile fun x => decide (x ≠ a), n, ?_, front_of_rdropWhile a text⟩
      rw [hcut]
      exact hn
  · rintro ⟨hne, hs, front, n, rfl, hfront⟩
    rw [lastPiece_append_replicate]
    obtain rfl | hfront := hfront
    · exact lastPiece_of_notMem hne hs
    · obtain ⟨front, rfl⟩ := List.getLast?_eq_some_iff.1 hfront
      rw [List.append_assoc, List.singleton_append]
      exact lastPiece_append_cons hne hs

end Last

/-! ## The first of each kind -/

section Firsts

variable [DecidableEq κ] (key : α → κ)

/-- The elements whose key is not in `seen` and did not come before. -/
def firsts : List κ → List α → List α
  | _, [] => []
  | seen, x :: rest =>
    if key x ∈ seen then firsts seen rest else x :: firsts (key x :: seen) rest

theorem firsts_sublist (seen : List κ) (l : List α) : (firsts key seen l).Sublist l := by
  induction l generalizing seen with
  | nil => exact .slnil
  | cons x rest ih =>
    rw [firsts]
    split
    · exact (ih seen).cons x
    · exact (ih _).cons_cons x

theorem map_firsts_seen (seen : List κ) (l : List α) :
    (firsts key seen l).map key = ((l.map key).filter fun k => k ∉ seen).eraseDups := by
  induction l generalizing seen with
  | nil => rfl
  | cons x rest ih =>
    rw [firsts, List.map_cons]
    by_cases hx : key x ∈ seen
    · rw [if_pos hx, ih, List.filter_cons_of_neg (by simpa using hx)]
    · rw [if_neg hx, List.map_cons, ih, List.filter_cons_of_pos (by simpa using hx), List.eraseDups_cons,
        List.filter_filter]
      have hsame : ∀ k ∈ rest.map key, decide (k ∉ key x :: seen) = (!(k == key x) && decide (k ∉ seen)) := by
        intro k _
        by_cases hk : k = key x <;> simp [hk]
      rw [List.filter_congr hsame]

theorem map_firsts (l : List α) : (firsts key [] l).map key = (l.map key).eraseDups := by
  rw [map_firsts_seen]
  simp

end Firsts

theorem nodup_eraseDups [DecidableEq κ] (l : List κ) : l.eraseDups.Nodup := by
  induction h : l.length using Nat.strongRecOn generalizing l with
  | ind n ih =>
    cases l with
    | nil => exact .nil
    | cons k rest =>
      have hlen := List.length_filter_le (fun x => !x == k) rest
      rw [List.length_cons] at h
      rw [List.eraseDups_cons, List.nodup_cons]
      exact ⟨by simp, ih _ (by omega) _ rfl⟩

end Crawlrs.Pieces
