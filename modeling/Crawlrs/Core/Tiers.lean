import Mathlib.Logic.Function.Basic

/-!
# Read-through caches of two tiers

The value of a key is read from the upper tier, else from the lower one, else it is
loaded. A load fills both tiers and a hit of the lower one the upper, whose entries
may go at any time. Requests of one key need not load the same value.

* `Holds.read_fst`, `Holds.read_snd`: the first request of a key that loads a value
  decides what every later one reads.
-/
namespace Crawlrs

structure Tiers (κ β : Type) where
  upper : κ → Option β
  lower : κ → Option β

namespace Tiers

variable {κ β ε : Type} [DecidableEq κ]

def read (T : Tiers κ β) (k : κ) (load : Except ε β) : Except ε β × Tiers κ β :=
  match T.upper k with
  | some b => (.ok b, T)
  | none =>
    match T.lower k with
    | some b => (.ok b, { T with upper := Function.update T.upper k (some b) })
    | none =>
      match load with
      | .error e => (.error e, T)
      | .ok b => (.ok b, ⟨Function.update T.upper k (some b), Function.update T.lower k (some b)⟩)

/-- Entries of the upper tier go. -/
def evict (T : Tiers κ β) (drop : κ → Bool) : Tiers κ β :=
  { T with upper := fun k => if drop k then none else T.upper k }

/-- The first value the requests loaded for a key. -/
def firstLoad (requests : List (κ × Except ε β)) (k : κ) : Option β :=
  requests.findSome? fun r => if r.1 = k then r.2.toOption else none

/-- Both tiers agree with `first`, the lower one on every key. -/
structure Holds (T : Tiers κ β) (first : κ → Option β) : Prop where
  lower : T.lower = first
  upper : ∀ k b, T.upper k = some b → first k = some b

variable {T : Tiers κ β} {first : κ → Option β}

omit [DecidableEq κ] in
theorem Holds.evict (h : T.Holds first) (drop : κ → Bool) : (T.evict drop).Holds first := by
  refine ⟨h.lower, fun k b hk => ?_⟩
  simp only [Tiers.evict, Option.ite_none_left_eq_some] at hk
  exact h.upper k b hk.2

/-- A request reads what was loaded first, itself coming last. -/
theorem Holds.read_fst (h : T.Holds first) (k : κ) (load : Except ε β) :
    (T.read k load).1 = match first k with
      | some b => .ok b
      | none => load := by
  unfold read
  cases hu : T.upper k with
  | some b => simp [h.upper k b hu]
  | none =>
    rw [← h.lower]
    cases hl : T.lower k with
    | some b => rfl
    | none => cases load <;> rfl

theorem Holds.read_snd (h : T.Holds first) (k : κ) (load : Except ε β) :
    (T.read k load).2.Holds
      (Function.update first k ((first k).or load.toOption)) := by
  have hupper (b : β) (hb : first k = some b) : ∀ k' b', Function.update T.upper k (some b) k' =
      some b' → first k' = some b' := by
    intro k' b' hk'
    by_cases hk : k' = k
    · subst hk
      simp only [Function.update_self] at hk'
      rw [hb, hk']
    · rw [Function.update_of_ne hk] at hk'
      exact h.upper k' b' hk'
  have hsame (b : β) (hb : first k = some b) :
      Function.update first k ((first k).or load.toOption) = first := by
    rw [hb, Option.some_or, ← hb, Function.update_eq_self]
  unfold read
  cases hu : T.upper k with
  | some b =>
    rw [hsame b (h.upper k b hu)]
    exact h
  | none =>
    cases hl : T.lower k with
    | some b =>
      have hb : first k = some b := by rw [← h.lower, hl]
      rw [hsame b hb]
      exact ⟨h.lower, hupper b hb⟩
    | none =>
      have hnone : first k = none := by rw [← h.lower, hl]
      cases load with
      | error e =>
        have hid : Function.update first k ((first k).or (Except.error e : Except ε β).toOption) =
            first := by
          rw [hnone]
          exact (congrArg (Function.update first k) hnone).symm.trans (Function.update_eq_self k first)
        rw [hid]
        exact h
      | ok b =>
        rw [hnone]
        refine ⟨by rw [h.lower]; rfl, fun k' b' hk' => ?_⟩
        dsimp only at hk'
        by_cases hk : k' = k
        · subst hk
          simpa [Except.toOption] using hk'
        · rw [Function.update_of_ne hk] at hk' ⊢
          exact h.upper k' b' hk'

theorem firstLoad_concat (requests : List (κ × Except ε β)) (k : κ) (load : Except ε β) :
    firstLoad (requests ++ [(k, load)]) =
      Function.update (firstLoad requests) k ((firstLoad requests k).or load.toOption) := by
  funext k'
  by_cases hk : k' = k
  · subst hk
    simp [firstLoad]
  · have hne : ¬ k = k' := fun h => hk h.symm
    simp [firstLoad, Function.update_of_ne hk, hne]

end Tiers

end Crawlrs
