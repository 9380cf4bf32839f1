import Mathlib.Data.List.Nodup
import Mathlib.Data.List.Range

/-!
# Blocks of a list

`block n l i` is the `i`-th run of `n` consecutive elements of `l`. A queue read
`n` elements at a time is read in blocks; what is left after whole blocks have
been taken out, in any order, is a concatenation of the others.

* `mem_block`: an element is in the block of its position.
* `getElem?_flatMap`: pieces of one length are found at their stride.
* `take_flatMap_block`: the first `n` elements of what is left are one block.
* `filter_flatMap`: a filter that keeps or drops whole pieces.
-/
namespace Crawlrs

variable {α : Type} {n : Nat} {l : List α}

def block (n : Nat) (l : List α) (i : Nat) : List α := (l.drop (n * i)).take n

theorem flatMap_range_block (m : Nat) : (List.range m).flatMap (block n l) = l.take (n * m) := by
  induction m with
  | zero => simp
  | succ m ih =>
    rw [List.range_succ, List.flatMap_append, ih, List.flatMap_singleton, Nat.mul_succ,
      List.take_add]
    rfl

/-- Pieces of one length, put together: each is found at its stride. -/
theorem getElem?_flatMap {β : Type} {f : α → List β} (hf : ∀ x, (f x).length = n) (l : List α) (i : Nat)
    {j : Nat} (hj : j < n) : (l.flatMap f)[i * n + j]? = l[i]?.bind fun x => (f x)[j]? := by
  induction l generalizing i with
  | nil => simp
  | cons x l ih =>
    rw [List.flatMap_cons]
    cases i with
    | zero =>
      rw [Nat.zero_mul, Nat.zero_add, List.getElem?_append_left (by rw [hf]; exact hj)]
      rfl
    | succ i =>
      have hpos : (i + 1) * n + j = n + (i * n + j) := by rw [Nat.succ_mul]; omega
      rw [hpos, List.getElem?_append_right (by rw [hf]; omega), hf, Nat.add_sub_cancel_left, ih]
      rfl

/-- A loop over the positions of a list goes over the list. -/
theorem mapM_range {β : Type} {g : α → β} {l : List α} : ∀ {f : Nat → Option β},
    (∀ i, f i = l[i]?.map g) → (List.range l.length).mapM f = some (l.map g) := by
  induction l with
  | nil => intro f _; rfl
  | cons x l ih =>
    intro f hf
    have hfirst : f 0 = some (g x) := hf 0
    have hrest : (List.range l.length).mapM (f ∘ Nat.succ) = some (l.map g) := ih fun i => hf (i + 1)
    rw [List.length_cons, List.range_succ_eq_map, List.mapM_cons, hfirst, List.mapM_map, hrest]
    rfl

theorem mem_block (hn : 0 < n) {i : Nat} {x : α} :
    x ∈ block n l i ↔ ∃ p, p / n = i ∧ l[p]? = some x := by
  simp only [block, List.mem_iff_getElem?, List.getElem?_take, List.getElem?_drop]
  constructor
  · rintro ⟨q, hq⟩
    split at hq
    · rename_i hlt
      refine ⟨n * i + q, ?_, hq⟩
      rw [Nat.mul_add_div hn, Nat.div_eq_of_lt hlt, Nat.add_zero]
    · cases hq
  · rintro ⟨p, rfl, hp⟩
    refine ⟨p % n, ?_⟩
    rw [if_pos (Nat.mod_lt p hn), Nat.div_add_mod, hp]

theorem block_subset {i : Nat} {x : α} (h : x ∈ block n l i) : x ∈ l :=
  List.mem_of_mem_drop (List.mem_of_mem_take h)

/-- Blocks of a list without repetition have no element in common. -/
theorem block_disjoint (hn : 0 < n) (hl : l.Nodup) {i j : Nat} {x : α} (hi : x ∈ block n l i)
    (hj : x ∈ block n l j) : i = j := by
  obtain ⟨p, rfl, hp⟩ := (mem_block hn).1 hi
  obtain ⟨q, rfl, hq⟩ := (mem_block hn).1 hj
  obtain ⟨hp', -⟩ := List.getElem?_eq_some_iff.1 hp
  rw [(List.getElem?_inj hp' hl).1 (hp.trans hq.symm)]

/-- Of some blocks in order, the first `n` elements are the first block: every block but the
list's last is full. -/
theorem take_flatMap_block {i : Nat} {is : List Nat} (hs : (i :: is).Pairwise (· < ·))
    (hlt : ∀ j ∈ i :: is, n * j < l.length) : ((i :: is).flatMap (block n l)).take n = block n l i := by
  rw [List.flatMap_cons]
  cases is with
  | nil => simp [block, List.take_take]
  | cons j is =>
    have hij : i < j := (List.pairwise_cons.1 hs).1 j List.mem_cons_self
    have hj : n * j < l.length := hlt j (by simp)
    have hmul : n * (i + 1) ≤ n * j := Nat.mul_le_mul_left n hij
    have hlen : (block n l i).length = n := by
      simp only [block, List.length_take, List.length_drop]
      rw [Nat.mul_succ] at hmul
      omega
    exact List.take_left' hlen

theorem filter_flatMap {ι : Type} {f : ι → List α} {q : α → Bool} {keep : ι → Bool} {is : List ι}
    (h : ∀ i ∈ is, ∀ x ∈ f i, q x = keep i) :
    (is.flatMap f).filter q = (is.filter keep).flatMap f := by
  induction is with
  | nil => rfl
  | cons i is ih =>
    have hi := h i List.mem_cons_self
    rw [List.flatMap_cons, List.filter_append, ih fun j hj => h j (List.mem_cons_of_mem _ hj),
      List.filter_congr hi]
    cases hk : keep i <;> simp [hk]

end Crawlrs
