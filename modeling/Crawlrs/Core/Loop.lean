import Mathlib.Algebra.Ring.Nat
import Mathlib.Data.List.Dedup
import Mathlib.Logic.Function.Basic
import Mathlib.Tactic.ByContra

/-!
# Loops that answer

A loop over a list carries a state and answers every element. `Loop.after` is
the state behind the list and `Loop.trace` each element with its answer.

* `mem_trace`: an answer is the one of the body in the state the elements before
  it left.
* `trace_congr`: two bodies that agree in every state of a run are the same loop.
* `lockstep`: two loops whose bodies keep a relation and answer alike.
* `after_eq_self_iff`: when a loop has no effect.
* `after_keyed`, `trace_keyed`: a loop whose elements each touch one component of
  an indexed state is, for each index, the loop over the elements of that index.
* `flatMap_classes`: a list that goes through its classes in their order.
* `chunks_flatten`: what a list is cut into.
-/
namespace Crawlrs

namespace Loop

variable {σ α ν : Type}

def after (body : σ → α → σ × ν) (s : σ) (xs : List α) : σ :=
  xs.foldl (fun s x => (body s x).1) s

def trace (body : σ → α → σ × ν) : σ → List α → List (α × ν)
  | _, [] => []
  | s, x :: xs => (x, (body s x).2) :: trace body (body s x).1 xs

variable (body : σ → α → σ × ν)

@[simp] theorem after_nil (s : σ) : after body s [] = s := rfl

@[simp] theorem after_cons (s : σ) (x : α) (xs : List α) :
    after body s (x :: xs) = after body (body s x).1 xs := rfl

@[simp] theorem trace_nil (s : σ) : trace body s [] = [] := rfl

@[simp] theorem trace_cons (s : σ) (x : α) (xs : List α) :
    trace body s (x :: xs) = (x, (body s x).2) :: trace body (body s x).1 xs := rfl

theorem after_append (s : σ) (xs ys : List α) :
    after body s (xs ++ ys) = after body (after body s xs) ys := List.foldl_append

theorem trace_append (s : σ) (xs ys : List α) :
    trace body s (xs ++ ys) = trace body s xs ++ trace body (after body s xs) ys := by
  induction xs generalizing s with
  | nil => rfl
  | cons x xs ih => rw [List.cons_append, trace_cons, trace_cons, ih, after_cons, List.cons_append]

theorem trace_fst (s : σ) (xs : List α) : (trace body s xs).map Prod.fst = xs := by
  induction xs generalizing s with
  | nil => rfl
  | cons x xs ih => simp only [trace_cons, List.map_cons, ih]

variable {body}

/-- An answer is given in the state the elements before it left. -/
theorem mem_trace {s : σ} {xs : List α} {x : α} {v : ν} : (x, v) ∈ trace body s xs ↔
    ∃ pre post, xs = pre ++ x :: post ∧ (body (after body s pre) x).2 = v := by
  induction xs generalizing s with
  | nil => simp
  | cons y xs ih =>
    rw [trace_cons, List.mem_cons, ih]
    constructor
    · intro h
      rcases h with h | ⟨pre, post, hxs, hv⟩
      · cases h
        exact ⟨[], xs, rfl, rfl⟩
      · subst hxs
        exact ⟨y :: pre, post, rfl, hv⟩
    · intro ⟨pre, post, hxs, hv⟩
      cases pre with
      | nil =>
        cases hxs
        exact .inl (by rw [← hv]; rfl)
      | cons z pre =>
        cases hxs
        exact .inr ⟨pre, post, rfl, hv⟩

/-- Bodies that agree along the run. -/
theorem trace_congr {body' : σ → α → σ × ν} {s : σ} {xs : List α}
    (h : ∀ pre x post, xs = pre ++ x :: post → body' (after body s pre) x = body (after body s pre) x) :
    after body' s xs = after body s xs ∧ trace body' s xs = trace body s xs := by
  induction xs generalizing s with
  | nil => exact ⟨rfl, rfl⟩
  | cons x xs ih =>
    have hx : body' s x = body s x := h [] x xs rfl
    have ih := ih (s := (body s x).1) fun pre y post hxs => h (x :: pre) y post (by rw [hxs]; rfl)
    rw [after_cons, after_cons, trace_cons, trace_cons, hx, ih.1, ih.2]
    exact ⟨rfl, rfl⟩

/-- Two loops whose bodies keep a relation and give the same verdicts. -/
theorem lockstep {τ : Type} {body' : τ → α → τ × ν} {Rel : σ → τ → Prop} {xs : List α}
    (h : ∀ s t x, x ∈ xs → Rel s t → Rel (body s x).1 (body' t x).1 ∧ (body s x).2 = (body' t x).2) :
    ∀ {s : σ} {t : τ}, Rel s t →
      Rel (after body s xs) (after body' t xs) ∧ trace body s xs = trace body' t xs := by
  induction xs with
  | nil => intro s t hr; exact ⟨hr, rfl⟩
  | cons x xs ih =>
    intro s t hr
    obtain ⟨hr', hv⟩ := h s t x List.mem_cons_self hr
    obtain ⟨hafter, htrace⟩ := ih (fun s t y hy => h s t y (List.mem_cons_of_mem _ hy)) hr'
    refine ⟨hafter, ?_⟩
    rw [trace_cons, trace_cons, hv, htrace]

/-- A loop whose body changes nothing. -/
theorem after_const {s : σ} {xs : List α} (h : ∀ x ∈ xs, (body s x).1 = s) : after body s xs = s := by
  induction xs with
  | nil => rfl
  | cons x xs ih =>
    rw [after_cons, h x List.mem_cons_self]
    exact ih fun y hy => h y (List.mem_cons_of_mem _ hy)

/-- A loop that leaves marks changes nothing exactly when no element is open to it where it starts. -/
theorem after_eq_self_iff {γ : Type} (closed : σ → α → Prop) (marked : σ → γ → Prop)
    (hmono : ∀ s x g, marked s g → marked (body s x).1 g)
    (hclosed : ∀ s x, closed s x → (body s x).1 = s)
    (hopen : ∀ s x, ¬ closed s x → ∃ g, ¬ marked s g ∧ marked (body s x).1 g) {s : σ} {xs : List α} :
    after body s xs = s ↔ ∀ x ∈ xs, closed s x := by
  have hmarks : ∀ (xs : List α) (t : σ) (g : γ), marked t g → marked (after body t xs) g := by
    intro xs
    induction xs with
    | nil => intro t g h; exact h
    | cons x xs ih => intro t g h; exact ih _ g (hmono t x g h)
  constructor
  · intro h
    induction xs with
    | nil => simp
    | cons x xs ih =>
      have hx : closed s x := by
        by_contra hx
        obtain ⟨g, hg, hg'⟩ := hopen s x hx
        have hend := hmarks xs (body s x).1 g hg'
        rw [← after_cons, h] at hend
        exact hg hend
      rw [after_cons, hclosed s x hx] at h
      intro y hy
      rcases List.mem_cons.1 hy with rfl | hy
      · exact hx
      · exact ih h y hy
  · intro h
    exact after_const fun x hx => hclosed s x (h x hx)

/-! ## Indexed states -/

section Keyed

variable {κ : Type} [DecidableEq κ]

/-- The body on the component the element names. -/
def keyed (key : α → κ) (body : σ → α → σ × ν) (S : κ → σ) (x : α) : (κ → σ) × ν :=
  (Function.update S (key x) (body (S (key x)) x).1, (body (S (key x)) x).2)

variable (key : α → κ) (body)

theorem after_keyed (S : κ → σ) (xs : List α) (k : κ) :
    after (keyed key body) S xs k = after body (S k) (xs.filter (key · = k)) := by
  induction xs generalizing S with
  | nil => rfl
  | cons x xs ih =>
    rw [after_cons, ih]
    by_cases hk : key x = k
    · subst hk
      simp [keyed]
    · have hne : k ≠ key x := fun h => hk h.symm
      simp [keyed, hk, hne]

theorem trace_keyed (S : κ → σ) (xs : List α) (k : κ) :
    (trace (keyed key body) S xs).filter (key ·.1 = k) =
      trace body (S k) (xs.filter (key · = k)) := by
  induction xs generalizing S with
  | nil => rfl
  | cons x xs ih =>
    rw [trace_cons]
    by_cases hk : key x = k
    · subst hk
      rw [List.filter_cons_of_pos (by simp), List.filter_cons_of_pos (by simp), trace_cons, ih]
      simp [keyed]
    · have hne : k ≠ key x := fun h => hk h.symm
      rw [List.filter_cons_of_neg (by simpa using hk), List.filter_cons_of_neg (by simpa using hk), ih]
      simp [keyed, hne]

end Keyed

end Loop

/-! ## Classes of a list -/

/-- Counting by classes. -/
theorem countP_eq_sum_classes {α κ : Type} [DecidableEq κ] (key : α → κ) (p : α → Bool)
    {ks : List κ} (hnd : ks.Nodup) : ∀ {xs : List α}, (∀ x ∈ xs, key x ∈ ks) →
      xs.countP p = (ks.map fun k => (xs.filter (key · = k)).countP p).sum := by
  induction ks with
  | nil =>
    intro xs h
    have hnil : xs = [] := List.eq_nil_iff_forall_not_mem.2 fun x hx => by simpa using h x hx
    simp [hnil]
  | cons k ks ih =>
    intro xs h
    obtain ⟨hk, hnd⟩ := List.nodup_cons.1 hnd
    have hks : ∀ x ∈ xs.filter fun x => ¬ key x = k, key x ∈ ks := by
      intro x hx
      simp only [List.mem_filter, decide_eq_true_eq] at hx
      simpa [hx.2] using h x hx.1
    have hrest := ih hnd hks
    have hsame : (ks.map fun j => ((xs.filter fun x => ¬ key x = k).filter (key · = j)).countP p) =
        ks.map fun j => (xs.filter (key · = j)).countP p := by
      refine List.map_congr_left fun j hj => ?_
      rw [List.filter_filter]
      congr 1
      refine List.filter_congr fun x _ => ?_
      by_cases hx : key x = j
      · have hne : key x ≠ k := fun h' => hk (by rw [← h', hx]; exact hj)
        simp [hx, show j ≠ k from hx ▸ hne]
      · simp [hx]
    rw [List.map_cons, List.sum_cons, ← hsame, ← hrest]
    have hsplit := List.countP_eq_countP_filter_add xs p (fun x => decide (key x = k))
    simpa using hsplit

/-- Those of one class come first. -/
theorem filter_append_filter_of_pairwise {α : Type} (p : α → Bool) {xs : List α}
    (h : xs.Pairwise fun a b => p b → p a) : xs.filter p ++ xs.filter (fun x => !p x) = xs := by
  induction xs with
  | nil => rfl
  | cons x xs ih =>
    obtain ⟨hx, hxs⟩ := List.pairwise_cons.1 h
    cases hp : p x with
    | true => simp [hp, ih hxs]
    | false =>
      have hnone : xs.filter p = [] := List.filter_eq_nil_iff.2 fun y hy hpy => by
        have := hx y hy hpy
        rw [hp] at this
        cases this
      have hrest := ih hxs
      rw [hnone, List.nil_append] at hrest
      simp [hp, hnone, hrest]

/-- A list that goes through its classes in their order is its classes one after the other. -/
theorem flatMap_classes {α κ : Type} [DecidableEq κ] (key : α → κ) {ks : List κ} (hnd : ks.Nodup) :
    ∀ {xs : List α}, (∀ x ∈ xs, key x ∈ ks) →
      (xs.Pairwise fun a b => ks.idxOf (key a) ≤ ks.idxOf (key b)) →
      ks.flatMap (fun k => xs.filter (key · = k)) = xs := by
  induction ks with
  | nil =>
    intro xs hks _
    have hnil : xs = [] := List.eq_nil_iff_forall_not_mem.2 fun x hx => by simpa using hks x hx
    simp [hnil]
  | cons k ks ih =>
    intro xs hks hpair
    obtain ⟨hk, hnd⟩ := List.nodup_cons.1 hnd
    have hfirst : xs.Pairwise fun a b => decide (key b = k) → decide (key a = k) := by
      refine hpair.imp fun {a b} hle hb => ?_
      have hb : key b = k := of_decide_eq_true hb
      rw [hb, List.idxOf_cons_self] at hle
      by_contra hne
      have hne : key a ≠ k := fun he => hne (by simp [he])
      rw [List.idxOf_cons_ne _ (Ne.symm hne)] at hle
      omega
    have hother : ∀ x ∈ xs.filter fun x => !decide (key x = k), x ∈ xs ∧ key x ≠ k := by
      intro x hx
      simpa using hx
    have hsame : ks.flatMap (fun j => xs.filter (key · = j)) =
        ks.flatMap fun j => (xs.filter fun x => !decide (key x = k)).filter (key · = j) := by
      refine List.flatMap_congr fun j hj => ?_
      rw [List.filter_filter]
      refine List.filter_congr fun x _ => ?_
      have hne : j ≠ k := fun he => hk (he ▸ hj)
      by_cases hx : key x = j
      · simp [hx, hne]
      · simp [hx]
    have hrest : ks.flatMap (fun j => (xs.filter fun x => !decide (key x = k)).filter (key · = j)) =
        xs.filter fun x => !decide (key x = k) := by
      refine ih hnd (fun x hx => ?_) ((hpair.filter _).imp_of_mem fun {a b} ha hb hle => ?_)
      · obtain ⟨hx, hne⟩ := hother x hx
        simpa [hne] using hks x hx
      · rw [List.idxOf_cons_ne _ (Ne.symm (hother a ha).2),
          List.idxOf_cons_ne _ (Ne.symm (hother b hb).2)] at hle
        omega
    rw [List.flatMap_cons, hsame, hrest]
    exact filter_append_filter_of_pairwise _ hfirst

/-! ## Chunks -/

/-- `chunks(n)` of what is left, with the chunk begun so far. -/
def chunksFrom {α : Type} (n : Nat) : List α → List α → List (List α)
  | [], [] => []
  | begun, [] => [begun]
  | begun, x :: xs =>
    if begun.length + 1 = n then (begun ++ [x]) :: chunksFrom n [] xs
    else chunksFrom n (begun ++ [x]) xs

/-- `slice::chunks`, for `0 < n`. -/
def chunks {α : Type} (n : Nat) (xs : List α) : List (List α) := chunksFrom n [] xs

theorem chunksFrom_flatten {α : Type} (n : Nat) (xs : List α) :
    ∀ begun : List α, (chunksFrom n begun xs).flatten = begun ++ xs := by
  induction xs with
  | nil => intro begun; cases begun <;> simp [chunksFrom]
  | cons x xs ih =>
    intro begun
    rw [chunksFrom]
    split
    · simp [ih]
    · simp [ih]

theorem chunks_flatten {α : Type} (n : Nat) (xs : List α) : (chunks n xs).flatten = xs :=
  chunksFrom_flatten n xs []

namespace Loop

variable {α σ ν κ : Type} [DecidableEq κ] (key : α → κ) (body : σ → α → σ × ν)

/-- Verdicts are counted component by component. -/
theorem countP_trace_keyed (p : ν → Bool) (S : κ → σ) {xs : List α} {ks : List κ} (hnd : ks.Nodup)
    (hks : ∀ x ∈ xs, key x ∈ ks) : (trace (keyed key body) S xs).countP (fun q => p q.2) =
      (ks.map fun k => (trace body (S k) (xs.filter (key · = k))).countP fun q => p q.2).sum := by
  have hkeys : ∀ q ∈ trace (keyed key body) S xs, key q.1 ∈ ks := by
    intro q hq
    apply hks
    rw [← trace_fst (keyed key body) S xs]
    exact List.mem_map_of_mem hq
  rw [countP_eq_sum_classes (fun q : α × ν => key q.1) (fun q => p q.2) hnd hkeys]
  refine congrArg List.sum (List.map_congr_left fun k _ => ?_)
  rw [trace_keyed]

/-- The elements of one verdict, component by component. -/
theorem filter_trace_keyed (p : ν → Bool) (S : κ → σ) (xs : List α) (k : κ) :
    (((trace (keyed key body) S xs).filter fun q => p q.2).map Prod.fst).filter (key · = k) =
      ((trace body (S k) (xs.filter (key · = k))).filter fun q => p q.2).map Prod.fst := by
  rw [List.filter_map, List.filter_filter, ← trace_keyed, List.filter_filter]
  congr 1
  refine List.filter_congr fun q _ => ?_
  rw [Bool.and_comm]
  rfl

end Loop

end Crawlrs
