import Mathlib.Logic.Function.Basic

/-!
# Membership sketches

A Bloom filter may answer "present" for an element never added, and never
"absent" for one that was. `Sketch` is a filter state `σ` with that one
guarantee; false positives are unconstrained. `bfAdd` is the check-and-set
command: it answers `true` exactly when the element was not reported before.

`put` stores into a map only what the sketch does not report. Storing a list
again changes nothing (`putAll_of_has`), false positives or not.
-/
namespace Crawlrs

structure Sketch (α σ : Type) where
  has : σ → α → Bool
  insert : σ → α → σ
  has_insert_self : ∀ s a, has (insert s a) a = true
  has_insert : ∀ s a b, has s b = true → has (insert s a) b = true

namespace Sketch

variable {α σ : Type}

/-- `BF.ADD`: the new filter, and whether the element was newly added. -/
def bfAdd (B : Sketch α σ) (s : σ) (a : α) : σ × Bool :=
  if B.has s a then (s, false) else (B.insert s a, true)

/-- The exact set, the sketch without false positives. -/
def exact [DecidableEq α] : Sketch α (List α) where
  has s a := decide (a ∈ s)
  insert s a := a :: s
  has_insert_self s a := by simp
  has_insert s a b h := by simp_all

/-! ## A map behind a sketch -/

section Put

variable {ν : Type} [DecidableEq α] (B : Sketch α σ)

/-- Store the value under its key, unless the sketch reports the key. -/
def put (m : σ × (α → Option ν)) (p : α × ν) : σ × (α → Option ν) :=
  if B.has m.1 p.1 then m else (B.insert m.1 p.1, Function.update m.2 p.1 (some p.2))

def putAll (m : σ × (α → Option ν)) (ps : List (α × ν)) : σ × (α → Option ν) := ps.foldl B.put m

variable {B} {m : σ × (α → Option ν)} {ps : List (α × ν)} {a : α}

theorem putAll_append (m : σ × (α → Option ν)) (ps qs : List (α × ν)) :
    B.putAll m (ps ++ qs) = B.putAll (B.putAll m ps) qs := List.foldl_append

theorem has_put_self (m : σ × (α → Option ν)) (p : α × ν) : B.has (B.put m p).1 p.1 = true := by
  unfold put
  split
  · assumption
  · exact B.has_insert_self _ _

theorem has_put (p : α × ν) (h : B.has m.1 a = true) : B.has (B.put m p).1 a = true := by
  unfold put
  split
  · exact h
  · exact B.has_insert _ _ _ h

theorem has_putAll_of_has (h : B.has m.1 a = true) : B.has (B.putAll m ps).1 a = true := by
  induction ps generalizing m with
  | nil => exact h
  | cons p ps ih => exact ih (has_put p h)

theorem has_putAll {p : α × ν} (h : p ∈ ps) : B.has (B.putAll m ps).1 p.1 = true := by
  induction ps generalizing m with
  | nil => cases h
  | cons q ps ih =>
    rcases List.mem_cons.1 h with rfl | h
    · rw [putAll, List.foldl_cons, ← putAll]
      exact has_putAll_of_has (has_put_self m p)
    · exact ih h

/-- What is reported already is not stored again. -/
theorem putAll_of_has (h : ∀ p ∈ ps, B.has m.1 p.1 = true) : B.putAll m ps = m := by
  induction ps with
  | nil => rfl
  | cons p ps ih =>
    have hp : B.put m p = m := by simp [put, h p List.mem_cons_self]
    rw [putAll, List.foldl_cons, hp]
    exact ih fun q hq => h q (List.mem_cons_of_mem _ hq)

theorem putAll_idem (m : σ × (α → Option ν)) (ps : List (α × ν)) :
    B.putAll (B.putAll m ps) ps = B.putAll m ps := putAll_of_has fun _ hp => has_putAll hp

theorem put_fst {m' : σ × (α → Option ν)} (h : m.1 = m'.1) (p : α × ν) :
    (B.put m p).1 = (B.put m' p).1 := by
  simp only [put, h]
  split
  · exact h
  · rfl

/-- The sketch does not depend on the values. -/
theorem putAll_fst {m' : σ × (α → Option ν)} (h : m.1 = m'.1) :
    (B.putAll m ps).1 = (B.putAll m' ps).1 := by
  induction ps generalizing m m' with
  | nil => exact h
  | cons p ps ih => exact ih (put_fst h p)

/-- The value of one key depends on the sketch and on that value alone. -/
theorem putAll_snd {m' : σ × (α → Option ν)} (h1 : m.1 = m'.1) (h2 : m.2 a = m'.2 a) :
    (B.putAll m ps).2 a = (B.putAll m' ps).2 a := by
  induction ps generalizing m m' with
  | nil => exact h2
  | cons p ps ih =>
    refine ih (put_fst h1 p) ?_
    simp only [put, h1]
    split
    · exact h2
    · by_cases ha : a = p.1
      · simp [ha]
      · simp [ha, h2]

end Put

end Sketch

end Crawlrs
