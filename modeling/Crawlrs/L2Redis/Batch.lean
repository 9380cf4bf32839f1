import Crawlrs.Core.Loop
import Crawlrs.L2Redis.Effects

/-!
# `submit_batch.lua`, entry by entry

The script is a loop over its entries with the keyspace as its only state, so
its reply can be read off the verdicts of the loop (`submitBatch_eq`).

`admitItem` is what the loop body is meant to do, with the cap and the counter as
integers. The script reads both as doubles: it rejects wherever `admitItem` does,
and also where the counter is below the cap but rounds to it (`Blurred`).

* `after_body_eq_self_iff`: which batches leave the keyspace as it is.
* `submitItem_of_sharp`: elsewhere the two are the same.
* `sharp_of_same`: a run that ends in the same keyspace with as many rejections
  has never been in such a place.
-/
namespace Crawlrs

variable {β α : Type}

namespace Shard

variable (B : Sketch UrlId β) (now : Int)

/-- The loop body for a list of something that becomes an entry. -/
def body (f : α → SubmitItem) (s : Shard β) (x : α) : Shard β × Verdict := submitItem B now s (f x)

theorem submitBatch_state (its : List SubmitItem) (s : Shard β) (acc : Nat × List UrlId) :
    (submitBatch B now its s acc).1 = Loop.after (submitItem B now) s its :=
  submitBatch_fst B now its s acc

theorem submitBatch_eq (f : α → SubmitItem) (xs : List α) : ∀ (s : Shard β) (queued : Nat)
    (rejected : List UrlId), submitBatch B now (xs.map f) s (queued, rejected) =
      (Loop.after (body B now f) s xs,
        queued + (Loop.trace (body B now f) s xs).countP (·.2 = .queued),
        rejected ++ ((Loop.trace (body B now f) s xs).filter (·.2 = .rejected)).map (f ·.1 |>.urlId)) := by
  induction xs with
  | nil => intro s queued rejected; simp [submitBatch]
  | cons x xs ih =>
    intro s queued rejected
    rw [List.map_cons, submitBatch, Loop.trace_cons, Loop.after_cons]
    cases hv : submitItem B now s (f x) with
    | mk s' v =>
      have hb : body B now f s x = (s', v) := hv
      cases v with
      | queued =>
        simp [ih, hb]
        omega
      | duplicate => simp [ih, hb]
      | rejected => simp [ih, hb]

theorem batchEffs_append (xs ys : List SubmitItem) (s : Shard β) :
    batchEffs B now (xs ++ ys) s =
      batchEffs B now xs s ++ batchEffs B now ys (Loop.after (submitItem B now) s xs) := by
  induction xs generalizing s with
  | nil => rfl
  | cons x xs ih =>
    simp only [List.cons_append, batchEffs, Loop.after_cons]
    cases hv : submitItem B now s x with
    | mk s' v => cases v <;> simp [ih]

/-! ## Batches without effect -/

/-- The script has nothing to do for the entry: its host is full, or the filter has it. -/
def Closed (s : Shard β) (it : SubmitItem) : Prop :=
  (0 ≤ f64 it.maxUrls ∧ f64 it.maxUrls ≤ f64 (s.hostCount it.host)) ∨ B.has s.seen it.urlId = true

instance (s : Shard β) (it : SubmitItem) : Decidable (Closed B s it) :=
  inferInstanceAs (Decidable (_ ∨ _))

theorem after_body_eq_self_iff (f : α → SubmitItem) (s : Shard β) (xs : List α) :
    Loop.after (body B now f) s xs = s ↔ ∀ x ∈ xs, Closed B s (f x) := by
  refine Loop.after_eq_self_iff (fun s x => Closed B s (f x))
    (fun (s : Shard β) u => B.has s.seen u = true) ?_ ?_ ?_
  · intro s x u h
    rw [body, submitItem_eq]
    split
    · exact h
    · split
      · exact h
      · exact B.has_insert _ _ _ h
  · intro s x h
    rw [body, submitItem_eq]
    split
    · rfl
    · rename_i hroom
      rw [if_pos (h.resolve_left hroom)]
  · intro s x h
    obtain ⟨hroom, hnew⟩ := not_or.1 h
    refine ⟨(f x).urlId, hnew, ?_⟩
    rw [body, submitItem_eq, if_neg hroom, if_neg hnew]
    exact B.has_insert_self _ _

/-! ## The step a batch is a loop of -/

/-- Reject if the counter has reached the cap, else drop if seen, else mark seen, count, store,
push and wake. -/
def admitItem (s : Shard β) (it : SubmitItem) : Shard β × Verdict :=
  if 0 ≤ it.maxUrls ∧ it.maxUrls ≤ s.hostCount it.host then (s, .rejected)
  else if B.has s.seen it.urlId then (s, .duplicate)
  else (s.accept B it.urlId it.host it.payload now (decide (0 ≤ it.maxUrls)), .queued)

/-- The host has as many URLs as it may have. -/
def AtCap (s : Shard β) (it : SubmitItem) : Prop :=
  0 ≤ it.maxUrls ∧ it.maxUrls ≤ s.hostCount it.host

instance (s : Shard β) (it : SubmitItem) : Decidable (AtCap s it) :=
  inferInstanceAs (Decidable (_ ∧ _))

theorem admitItem_rejected_iff {s : Shard β} {it : SubmitItem} :
    (admitItem B now s it).2 = .rejected ↔ AtCap s it := by
  rw [admitItem]
  split
  · rename_i h
    exact ⟨fun _ => h, fun _ => rfl⟩
  · rename_i h
    have hno : ¬ AtCap s it := h
    split
    · simp [hno]
    · simp [hno]

/-- Without a cap the step is `submit.lua`. -/
theorem admitItem_uncapped (s : Shard β) {it : SubmitItem} (h : it.maxUrls < 0) :
    ((admitItem B now s it).1 = (s.submit B it.urlId it.host it.payload now).1) ∧
      ((admitItem B now s it).2 = match (s.submit B it.urlId it.host it.payload now).2 with
        | .queued => .queued
        | .skippedDuplicate => .duplicate) := by
  have hneg : ¬ 0 ≤ it.maxUrls := by omega
  rw [submit_eq, admitItem, if_neg fun hc => hneg hc.1]
  split
  · exact ⟨rfl, rfl⟩
  · simp [hneg]

/-- The counter is below the cap, and no longer as a double. -/
def Blurred (s : Shard β) (it : SubmitItem) : Prop :=
  0 ≤ it.maxUrls ∧ s.hostCount it.host < it.maxUrls ∧
    f64 it.maxUrls ≤ f64 (s.hostCount it.host)

instance (s : Shard β) (it : SubmitItem) : Decidable (Blurred s it) :=
  inferInstanceAs (Decidable (_ ∧ _))

variable {B now}

theorem submitItem_of_sharp {s : Shard β} {it : SubmitItem} (h : ¬ Blurred s it) :
    submitItem B now s it = admitItem B now s it := by
  rw [submitItem_eq, admitItem]
  have hiff : (0 ≤ f64 it.maxUrls ∧ f64 it.maxUrls ≤ f64 (s.hostCount it.host)) ↔
      (0 ≤ it.maxUrls ∧ it.maxUrls ≤ s.hostCount it.host) := by
    rw [f64_nonneg_iff]
    constructor
    · intro ⟨h0, h1⟩
      refine ⟨h0, ?_⟩
      by_contra hlt
      exact h ⟨h0, by omega, h1⟩
    · intro ⟨h0, h1⟩
      exact ⟨h0, f64_mono h1⟩
  rw [if_congr hiff rfl rfl]
  simp only [f64_nonneg_iff]

theorem submitItem_of_blurred {s : Shard β} {it : SubmitItem} (h : Blurred s it) :
    submitItem B now s it = (s, .rejected) := by
  rw [submitItem_eq, if_pos ⟨f64_nonneg h.1, h.2.2⟩]

theorem admitItem_of_blurred {s : Shard β} {it : SubmitItem} (h : Blurred s it) :
    admitItem B now s it = if B.has s.seen it.urlId then (s, .duplicate)
      else (s.accept B it.urlId it.host it.payload now true, .queued) := by
  have hlt := h.2.1
  rw [admitItem, if_neg fun hc => by omega, decide_eq_true h.1]

/-! ### Telling the two apart -/

section Diverge

variable {cap : Host → Int} {h : Host}

/-- The host is full to the script. -/
def Full (cap : Host → Int) (h : Host) (s : Shard β) : Prop :=
  0 ≤ f64 (cap h) ∧ f64 (cap h) ≤ f64 (s.hostCount h)

/-- Where the script has filled a host it leaves it as it is. -/
theorem Full.submitItem (B : Sketch UrlId β) (now : Int) {s : Shard β} (hf : Full cap h s)
    {it : SubmitItem} (hcap : it.maxUrls = cap it.host) :
    Full cap h (Shard.submitItem B now s it).1 ∧
      (Shard.submitItem B now s it).1.hostQueue h = s.hostQueue h := by
  rw [submitItem_eq]
  split
  · exact ⟨hf, rfl⟩
  · rename_i hroom
    split
    · exact ⟨hf, rfl⟩
    · have hne : h ≠ it.host := by
        intro he
        subst he
        rw [hcap] at hroom
        exact hroom hf
      refine ⟨?_, by simp [accept, hne]⟩
      simp only [Full, accept]
      split
      · simpa [Full, hne] using hf
      · exact hf

theorem Full.after (B : Sketch UrlId β) (now : Int) {f : α → SubmitItem}
    (hcap : ∀ x, (f x).maxUrls = cap (f x).host) (xs : List α) : ∀ {s : Shard β}, Full cap h s →
      (Loop.after (body B now f) s xs).hostQueue h = s.hostQueue h := by
  induction xs with
  | nil => intro s _; rfl
  | cons x xs ih =>
    intro s hf
    obtain ⟨hf', hq⟩ := hf.submitItem B now (hcap x)
    exact (ih hf').trans hq

theorem admitItem_queue (B : Sketch UrlId β) (now : Int) (s : Shard β) (it : SubmitItem) (h : Host) :
    (s.hostQueue h).length ≤ ((admitItem B now s it).1.hostQueue h).length := by
  rw [admitItem]
  split
  · exact Nat.le_refl _
  · split
    · exact Nat.le_refl _
    · by_cases hh : h = it.host
      · simp [accept, hh]
      · simp [accept, hh]

theorem admitItem_after_queue (B : Sketch UrlId β) (now : Int) (f : α → SubmitItem) (xs : List α)
    (h : Host) : ∀ s : Shard β,
    (s.hostQueue h).length ≤
      ((Loop.after (fun s x => admitItem B now s (f x)) s xs).hostQueue h).length := by
  induction xs with
  | nil => intro s; exact Nat.le_refl _
  | cons x xs ih => intro s; exact Nat.le_trans (admitItem_queue B now s (f x) h) (ih _)

/-- A run that ends in the same keyspace as its integer counterpart has rejected at least as many,
and if no more, it was never where the two differ. -/
theorem sharp_of_same (cap : Host → Int) {f : α → SubmitItem}
    (hcap : ∀ x, (f x).maxUrls = cap (f x).host) {xs : List α} : ∀ {s : Shard β},
      Loop.after (body B now f) s xs = Loop.after (fun s x => admitItem B now s (f x)) s xs →
      (Loop.trace (fun s x => admitItem B now s (f x)) s xs).countP (·.2 = .rejected) ≤
          (Loop.trace (body B now f) s xs).countP (·.2 = .rejected) ∧
        ((Loop.trace (body B now f) s xs).countP (·.2 = .rejected) ≤
            (Loop.trace (fun s x => admitItem B now s (f x)) s xs).countP (·.2 = .rejected) →
          ∀ pre x post, xs = pre ++ x :: post →
            ¬ Blurred (Loop.after (fun s x => admitItem B now s (f x)) s pre) (f x)) := by
  induction xs with
  | nil => intro s _; exact ⟨Nat.le_refl _, fun _ pre x post hxs => by simp at hxs⟩
  | cons y xs ih =>
    intro s hsame
    rw [Loop.after_cons, Loop.after_cons] at hsame
    rw [Loop.trace_cons, Loop.trace_cons]
    by_cases hb : Blurred s (f y)
    · have hlua : body B now f s y = (s, .rejected) := submitItem_of_blurred hb
      rw [hlua] at hsame ⊢
      by_cases hs : B.has s.seen (f y).urlId = true
      · -- one rejection more than the integers, for good
        have hint : admitItem B now s (f y) = (s, .duplicate) := by rw [admitItem_of_blurred hb, if_pos hs]
        rw [hint] at hsame ⊢
        obtain ⟨hle, -⟩ := ih (s := s) hsame
        simp only [List.countP_cons]
        refine ⟨by simp; omega, fun hge => ?_⟩
        simp at hge
        omega
      · -- the integers have queued what the script will not
        exfalso
        have hint : admitItem B now s (f y) =
            (s.accept B (f y).urlId (f y).host (f y).payload now true, .queued) := by
          rw [admitItem_of_blurred hb, if_neg hs]
        have hfull : Full cap (f y).host s := by
          rw [Full, ← hcap]
          exact ⟨f64_nonneg hb.1, hb.2.2⟩
        have h1 := Full.after B now hcap xs hfull
        have h2 := admitItem_after_queue B now f xs (f y).host (admitItem B now s (f y)).1
        rw [hsame] at h1
        rw [hint] at h1 h2
        rw [h1] at h2
        simp [accept] at h2
    · have hb' : body B now f s y = admitItem B now s (f y) := submitItem_of_sharp hb
      rw [hb'] at hsame ⊢
      obtain ⟨hle, hsharp⟩ := ih hsame
      simp only [List.countP_cons]
      refine ⟨by omega, fun hge pre x post hxs => ?_⟩
      cases pre with
      | nil =>
        cases hxs
        exact hb
      | cons z pre =>
        cases hxs
        exact hsharp (by omega) pre x post rfl

end Diverge

end Shard

end Crawlrs
