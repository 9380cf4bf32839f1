import Mathlib.Data.List.Sort
import Mathlib.Data.List.Nodup
import Mathlib.Order.Defs.LinearOrder

/-!
# Sorted sets

A sorted set maps members to scores and lists them by score, equal scores by
member. `ZSet` is the list in that order; the structure carries the proof
that members are unique and that the list is sorted, so every value is a
sorted set. The operations are those of the server's commands of the same
names, on integer scores.

Every operation is characterised by its effect on `score?`.
-/
namespace Crawlrs

/-- The listing order: by score, then by member. -/
def zBefore {α : Type} [LinearOrder α] (a b : α × Int) : Prop :=
  a.2 < b.2 ∨ (a.2 = b.2 ∧ a.1 ≤ b.1)

instance {α : Type} [LinearOrder α] : DecidableRel (zBefore (α := α)) := fun a b =>
  inferInstanceAs (Decidable (a.2 < b.2 ∨ (a.2 = b.2 ∧ a.1 ≤ b.1)))

instance {α : Type} [LinearOrder α] : Std.Total (zBefore (α := α)) where
  total a b := by
    rcases lt_trichotomy a.2 b.2 with h | h | h
    · exact .inl (.inl h)
    · rcases le_total a.1 b.1 with h' | h'
      · exact .inl (.inr ⟨h, h'⟩)
      · exact .inr (.inr ⟨h.symm, h'⟩)
    · exact .inr (.inl h)

instance {α : Type} [LinearOrder α] : IsTrans (α × Int) zBefore where
  trans a b c := by
    rintro (h1 | ⟨h1, h1'⟩) (h2 | ⟨h2, h2'⟩)
    · exact .inl (h1.trans h2)
    · exact .inl (h2 ▸ h1)
    · exact .inl (h1 ▸ h2)
    · exact .inr ⟨h1.trans h2, h1'.trans h2'⟩

instance {α : Type} [LinearOrder α] : Std.Antisymm (zBefore (α := α)) where
  antisymm a b := by
    rintro (h1 | ⟨h1, h1'⟩) (h2 | ⟨h2, h2'⟩)
    · omega
    · omega
    · omega
    · exact Prod.ext (le_antisymm h1' h2') h1

structure ZSet (α : Type) [LinearOrder α] where
  entries : List (α × Int)
  nodup : (entries.map Prod.fst).Nodup
  sorted : entries.Pairwise zBefore

namespace ZSet

variable {α : Type} [LinearOrder α]

/-! ## Commands -/

def empty : ZSet α := ⟨[], by simp, by simp⟩

/-- `ZSCORE`. -/
def score? (z : ZSet α) (m : α) : Option Int := (z.entries.find? (fun e => e.1 = m)).map Prod.snd

/-- `ZREM key m`. -/
def zrem (z : ZSet α) (m : α) : ZSet α where
  entries := z.entries.filter (fun e => e.1 ≠ m)
  nodup := (List.Sublist.map Prod.fst List.filter_sublist).nodup z.nodup
  sorted := z.sorted.sublist List.filter_sublist

theorem fst_ne_of_mem_zrem {z : ZSet α} {m : α} {e : α × Int} (h : e ∈ (z.zrem m).entries) :
    e.1 ≠ m := by
  simpa using (List.mem_filter.1 h).2

/-- `ZADD key s m`: insert, or move to the new score. -/
def zadd (z : ZSet α) (m : α) (s : Int) : ZSet α where
  entries := (z.zrem m).entries.orderedInsert zBefore (m, s)
  nodup := by
    have hp := (List.perm_orderedInsert zBefore (m, s) (z.zrem m).entries).map Prod.fst
    rw [hp.nodup_iff, List.map_cons, List.nodup_cons]
    refine ⟨fun h => ?_, (z.zrem m).nodup⟩
    obtain ⟨e, he, hm⟩ := List.mem_map.1 h
    exact fst_ne_of_mem_zrem he hm
  sorted := (z.zrem m).sorted.orderedInsert _ _

/-- `ZADD key NX s m`: insert only when absent. -/
def zaddNX (z : ZSet α) (m : α) (s : Int) : ZSet α :=
  if (z.score? m).isSome then z else z.zadd m s

/-- `ZRANGEBYSCORE key lo hi LIMIT 0 limit`. -/
def zrangebyscore (z : ZSet α) (lo hi : Int) (limit : Nat) : List α :=
  ((z.entries.filter (fun e => lo ≤ e.2 ∧ e.2 ≤ hi)).take limit).map Prod.fst

/-- `ZRANGE key 0 0 WITHSCORES`. -/
def first? (z : ZSet α) : Option (α × Int) := z.entries.head?

/-- `ZCARD`. -/
def zcard (z : ZSet α) : Nat := z.entries.length

/-! ## Scores -/

theorem score?_eq_some {z : ZSet α} {m : α} {s : Int} :
    z.score? m = some s ↔ (m, s) ∈ z.entries := by
  unfold score?
  constructor
  · intro h
    obtain ⟨e, he, hs⟩ := Option.map_eq_some_iff.1 h
    have hm : e.1 = m := by simpa using List.find?_some he
    have := List.mem_of_find?_eq_some he
    rwa [← hm, ← hs]
  · intro h
    have huniq : ∀ e ∈ z.entries, e.1 = m → e = (m, s) := fun e he hm =>
      List.inj_on_of_nodup_map z.nodup he h hm
    cases hf : z.entries.find? (fun e => e.1 = m) with
    | none =>
      have := List.find?_eq_none.1 hf (m, s) h
      simp at this
    | some e =>
      have hm : e.1 = m := by simpa using List.find?_some hf
      rw [huniq e (List.mem_of_find?_eq_some hf) hm]; rfl

@[simp] theorem score?_empty (m : α) : (empty : ZSet α).score? m = none := rfl

theorem score?_zrem (z : ZSet α) (m m' : α) :
    (z.zrem m).score? m' = if m' = m then none else z.score? m' := by
  ext s
  rw [score?_eq_some]
  simp only [zrem, List.mem_filter, decide_not, Bool.not_eq_true', decide_eq_false_iff_not]
  split
  · simp_all
  · rename_i h; simp [h, score?_eq_some]

theorem score?_zadd (z : ZSet α) (m m' : α) (s : Int) :
    (z.zadd m s).score? m' = if m' = m then some s else z.score? m' := by
  have hr := score?_zrem z m m'
  ext t
  rw [score?_eq_some]
  simp only [zadd, List.mem_orderedInsert, Prod.mk.injEq]
  rw [← score?_eq_some, hr]
  split
  · rename_i h; simp [h, eq_comm]
  · rename_i h; simp [h]

theorem score?_zaddNX (z : ZSet α) (m m' : α) (s : Int) :
    (z.zaddNX m s).score? m' = if m' = m ∧ z.score? m = none then some s else z.score? m' := by
  unfold zaddNX
  by_cases h : (z.score? m).isSome
  · rw [if_pos h]
    have : z.score? m ≠ none := by rw [Option.isSome_iff_ne_none] at h; exact h
    simp [this]
  · rw [if_neg h, score?_zadd]
    have : z.score? m = none := by simpa using h
    simp [this]

theorem isSome_zaddNX (z : ZSet α) (m : α) (t : Int) : ((z.zaddNX m t).score? m).isSome := by
  rw [score?_zaddNX]
  cases h : z.score? m <;> simp

theorem isSome_zaddNX_of {z : ZSet α} {m : α} (m' : α) (t : Int) (h : (z.score? m).isSome) :
    ((z.zaddNX m' t).score? m).isSome := by
  rw [score?_zaddNX]
  split
  · rfl
  · exact h

/-- Every score meets `Q`. -/
def Scores (Q : Int → Prop) (z : ZSet α) : Prop := ∀ m t, z.score? m = some t → Q t

namespace Scores

variable {Q : Int → Prop} {z : ZSet α}

theorem zadd (h : z.Scores Q) (m : α) {s : Int} (hs : Q s) : (z.zadd m s).Scores Q := by
  intro m' t ht
  rw [score?_zadd] at ht
  split at ht
  · cases ht
    exact hs
  · exact h m' t ht

theorem zaddNX (h : z.Scores Q) (m : α) {s : Int} (hs : Q s) : (z.zaddNX m s).Scores Q := by
  intro m' t ht
  rw [score?_zaddNX] at ht
  split at ht
  · cases ht
    exact hs
  · exact h m' t ht

theorem zrem (h : z.Scores Q) (m : α) : (z.zrem m).Scores Q := by
  intro m' t ht
  rw [score?_zrem] at ht
  split at ht
  · cases ht
  · exact h m' t ht

end Scores

/-! ## Ranges -/

theorem score?_of_mem_zrangebyscore {z : ZSet α} {lo hi : Int} {limit : Nat} {m : α}
    (h : m ∈ z.zrangebyscore lo hi limit) : ∃ s, z.score? m = some s ∧ lo ≤ s ∧ s ≤ hi := by
  simp only [zrangebyscore, List.mem_map] at h
  obtain ⟨e, he, rfl⟩ := h
  have hf := List.mem_filter.1 (List.mem_of_mem_take he)
  exact ⟨e.2, score?_eq_some.2 hf.1, by simpa using hf.2⟩

theorem nodup_zrangebyscore (z : ZSet α) (lo hi : Int) (limit : Nat) :
    (z.zrangebyscore lo hi limit).Nodup :=
  (List.Sublist.map Prod.fst ((List.take_sublist _ _).trans List.filter_sublist)).nodup z.nodup

/-- A limit of at least the cardinality does not cut the range. -/
theorem mem_zrangebyscore {z : ZSet α} {lo hi : Int} {limit : Nat} (hl : z.zcard ≤ limit) {m : α}
    {s : Int} (hs : z.score? m = some s) (h1 : lo ≤ s) (h2 : s ≤ hi) :
    m ∈ z.zrangebyscore lo hi limit := by
  have hlen : (z.entries.filter (fun e => lo ≤ e.2 ∧ e.2 ≤ hi)).length ≤ limit :=
    Nat.le_trans (List.length_filter_le _ _) hl
  rw [zrangebyscore, List.take_of_length_le hlen, List.mem_map]
  exact ⟨(m, s), List.mem_filter.2 ⟨score?_eq_some.1 hs, by simp [h1, h2]⟩, rfl⟩

end ZSet

end Crawlrs
