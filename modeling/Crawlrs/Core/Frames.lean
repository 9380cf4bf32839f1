import Mathlib.Data.List.Basic

/-!
# Frames in a stream

A reader takes one item off the front of a list. `Frame read code x`: `code` is a
frame of `x`, so that `read` finds `x` in it whatever follows and leaves what follows.
From frames one reads a whole stream (`readAll_flatMap`) and a header up to the item
that ends it (`readUntil_flatMap`). `cutPair` reads up to a two-element separator.
-/
namespace Crawlrs.Frames

variable {α β ι : Type}

abbrev Reader (β α : Type) := List β → Option (α × List β)

/-- `code` holds `x` and its own end. -/
structure Frame (read : Reader β α) (code : List β) (x : α) : Prop where
  ne_nil : code ≠ []
  read_append : ∀ rest, read (code ++ rest) = some (x, rest)

/-! ## Streams -/

/-- `n` bounds the number of items. -/
def readN (read : Reader β α) : Nat → List β → Option (List α)
  | _, [] => some []
  | 0, _ :: _ => none
  | n + 1, b :: bs =>
    match read (b :: bs) with
    | some (x, rest) => (readN read n rest).map (x :: ·)
    | none => none

/-- Items up to the end of the list. -/
def readAll (read : Reader β α) (bs : List β) : Option (List α) := readN read bs.length bs

theorem readN_flatMap {read : Reader β α} {code : ι → List β} {val : ι → α} {xs : List ι} {n : Nat}
    (hn : xs.length ≤ n) (h : ∀ i ∈ xs, Frame read (code i) (val i)) :
    readN read n (xs.flatMap code) = some (xs.map val) := by
  induction xs generalizing n with
  | nil => cases n <;> rfl
  | cons i xs ih =>
    cases n with
    | zero => simp at hn
    | succ n =>
      have hi := h i List.mem_cons_self
      have hread := hi.read_append (xs.flatMap code)
      have htail := ih (Nat.le_of_succ_le_succ hn) fun j hj => h j (List.mem_cons_of_mem _ hj)
      obtain ⟨b, bs, hcode⟩ := List.exists_cons_of_ne_nil hi.ne_nil
      rw [hcode, List.cons_append] at hread
      rw [List.flatMap_cons, hcode, List.cons_append, readN, hread]
      simp [htail]

theorem length_le_flatMap {code : ι → List β} {xs : List ι} (h : ∀ i ∈ xs, code i ≠ []) :
    xs.length ≤ (xs.flatMap code).length := by
  induction xs with
  | nil => simp
  | cons i xs ih =>
    have hi := List.length_pos_of_ne_nil (h i List.mem_cons_self)
    have htail := ih fun j hj => h j (List.mem_cons_of_mem _ hj)
    simp only [List.flatMap_cons, List.length_append, List.length_cons]
    omega

/-- A stream of frames is read as what they hold, in order. -/
theorem readAll_flatMap {read : Reader β α} {code : ι → List β} {val : ι → α} {xs : List ι}
    (h : ∀ i ∈ xs, Frame read (code i) (val i)) :
    readAll read (xs.flatMap code) = some (xs.map val) :=
  readN_flatMap (length_le_flatMap fun i hi => (h i hi).ne_nil) h

/-! ## Up to an item -/

/-- Items up to the first one with `stop`, which is dropped. -/
def readUntilN (read : Reader β α) (stop : α → Bool) : Nat → Reader β (List α)
  | 0, _ => none
  | n + 1, bs =>
    match read bs with
    | some (x, rest) =>
      if stop x then some ([], rest)
      else (readUntilN read stop n rest).map fun p => (x :: p.1, p.2)
    | none => none

def readUntil (read : Reader β α) (stop : α → Bool) (bs : List β) : Option (List α × List β) :=
  readUntilN read stop bs.length bs

theorem readUntilN_flatMap {read : Reader β α} {stop : α → Bool} {code : ι → List β} {val : ι → α}
    {xs : List ι} {last : List β} {x : α} {n : Nat} (hn : xs.length < n)
    (h : ∀ i ∈ xs, Frame read (code i) (val i) ∧ stop (val i) = false) (hlast : Frame read last x)
    (hstop : stop x = true) (rest : List β) :
    readUntilN read stop n (xs.flatMap code ++ last ++ rest) = some (xs.map val, rest) := by
  induction xs generalizing n with
  | nil =>
    cases n with
    | zero => simp at hn
    | succ n => simp [readUntilN, hlast.read_append, hstop]
  | cons i xs ih =>
    cases n with
    | zero => simp at hn
    | succ n =>
      obtain ⟨hi, hgo⟩ := h i List.mem_cons_self
      have htail := ih (Nat.lt_of_succ_lt_succ hn) fun j hj => h j (List.mem_cons_of_mem _ hj)
      rw [List.flatMap_cons, List.append_assoc, List.append_assoc, readUntilN, hi.read_append]
      rw [List.append_assoc] at htail
      simp [hgo, htail]

/-- A header of frames with the one that ends it is a frame of the header. -/
theorem readUntil_flatMap {read : Reader β α} (stop : α → Bool) {code : ι → List β} {val : ι → α}
    {xs : List ι} {last : List β} {x : α}
    (h : ∀ i ∈ xs, Frame read (code i) (val i) ∧ stop (val i) = false) (hlast : Frame read last x)
    (hstop : stop x = true) :
    Frame (readUntil read stop) (xs.flatMap code ++ last) (xs.map val) where
  ne_nil := by simp [hlast.ne_nil]
  read_append rest := by
    refine readUntilN_flatMap ?_ h hlast hstop rest
    have hlen := length_le_flatMap fun i hi => (h i hi).1.ne_nil
    have hpos := List.length_pos_of_ne_nil hlast.ne_nil
    simp only [List.length_append]
    omega

/-! ## Separators -/

/-- What stands before the first `a` that has `b` behind it, and what stands behind the two. -/
def cutPair [DecidableEq β] (a b : β) : Reader β (List β)
  | [] => none
  | x :: rest =>
    if x = a ∧ rest.head? = some b then some ([], rest.tail)
    else (cutPair a b rest).map fun p => (x :: p.1, p.2)

theorem cutPair_append [DecidableEq β] {a b : β} {l : List β} (h : a ∉ l) (rest : List β) :
    cutPair a b (l ++ a :: b :: rest) = some (l, rest) := by
  induction l with
  | nil => simp [cutPair]
  | cons x l ih =>
    obtain ⟨hx, hl⟩ := not_or.1 (mt List.mem_cons.2 h)
    rw [List.cons_append, cutPair, if_neg fun he => hx he.1.symm, ih hl]
    rfl

theorem frame_cutPair [DecidableEq β] {a b : β} {l : List β} (h : a ∉ l) :
    Frame (cutPair a b) (l ++ [a, b]) l where
  ne_nil := by simp
  read_append rest := by
    rw [List.append_assoc]
    exact cutPair_append h rest

end Crawlrs.Frames
