import Crawlrs.Core.LTS
import Mathlib.Logic.Relation

/-!
# Programs that call out

`Prog C R α` is a program that computes an `α` through calls `c : C`, each
answered by an `R c`. Who answers, and what others do to the shared state
between two calls, is a `World`.

* `Safe W ok post p log s`: started at `s` after the calls of `log`, every call
  of `p` meets `ok` where it is made, and `post` holds where `p` returns. The
  rules `safe_perform`, `safe_bind`, `safe_each` follow the shape of a program;
  a fact carried over a call has to be `World.Stable`.
* `Session`: programs run one after another over one state, each cut off at
  any point. `Session.safe` turns `Safe` of every program into a fact about
  every call of every run.
* `interp`, `drive`, `trace`: run a program against a function that answers, to
  its end or up to a given call.
-/
namespace Crawlrs

inductive Prog (C : Type) (R : C → Type) (α : Type) : Type
  | pure (a : α)
  | call (c : C) (k : R c → Prog C R α)

/-- What the others may do between two calls, and how a call is answered. -/
structure World (σ C : Type) (R : C → Type) where
  env : σ → σ → Prop
  act : σ → (c : C) → R c → σ → Prop

namespace World

variable {σ C : Type} {R : C → Type}

/-- Kept by everything the others do. -/
def Stable (W : World σ C R) (P : σ → Prop) : Prop := ∀ s s', P s → W.env s s' → P s'

theorem Stable.and {W : World σ C R} {P Q : σ → Prop} (hP : W.Stable P) (hQ : W.Stable Q) :
    W.Stable fun s => P s ∧ Q s :=
  fun s s' h he => ⟨hP s s' h.1 he, hQ s s' h.2 he⟩

theorem Stable.rely {W : World σ C R} {P : σ → Prop} (h : W.Stable P) {s s' : σ} (hs : P s)
    (hr : Relation.ReflTransGen W.env s s') : P s' := by
  induction hr with
  | refl => exact hs
  | tail _ hst ih => exact h _ _ ih hst

end World

namespace Prog

variable {C : Type} {R : C → Type} {σ ι α β : Type}

protected def bind : Prog C R α → (α → Prog C R β) → Prog C R β
  | .pure a, f => f a
  | .call c k, f => .call c fun r => (k r).bind f

instance : Monad (Prog C R) where
  pure := .pure
  bind := Prog.bind

def perform (c : C) : Prog C R (R c) := .call c .pure

/-- `for x in xs`. -/
def each (f : ι → Prog C R Unit) : List ι → Prog C R Unit
  | [] => pure ()
  | x :: xs => do
    f x
    each f xs

/-- Calls and their answers, the latest first. -/
abbrev Log (C : Type) (R : C → Type) := List ((c : C) × R c)

/-! ## Safety -/

section Safe

variable (W : World σ C R) (ok : Log C R → σ → C → Prop)

def Safe (post : α → Log C R → σ → Prop) : Prog C R α → Log C R → σ → Prop
  | .pure a, log, s => post a log s
  | .call c k, log, s =>
    ∀ s₁, Relation.ReflTransGen W.env s s₁ →
      ok log s₁ c ∧ ∀ r s₂, W.act s₁ c r s₂ → Safe post (k r) (⟨c, r⟩ :: log) s₂

variable {W ok} {post post' : α → Log C R → σ → Prop} {log : Log C R} {s : σ}

theorem Safe.mono (hpost : ∀ a log s, post a log s → post' a log s) {p : Prog C R α}
    (h : Safe W ok post p log s) : Safe W ok post' p log s := by
  induction p generalizing log s with
  | pure a => exact hpost _ _ _ h
  | call c k ih =>
    intro s₁ hr
    obtain ⟨hok, hk⟩ := h s₁ hr
    exact ⟨hok, fun r s₂ ha => ih r (hk r s₂ ha)⟩

theorem Safe.mono_ok {ok' : Log C R → σ → C → Prop} (hok : ∀ log s c, ok log s c → ok' log s c)
    {p : Prog C R α} (h : Safe W ok post p log s) : Safe W ok' post p log s := by
  induction p generalizing log s with
  | pure a => exact h
  | call c k ih =>
    intro s₁ hr
    obtain ⟨hc, hk⟩ := h s₁ hr
    exact ⟨hok _ _ _ hc, fun r s₂ ha => ih r (hk r s₂ ha)⟩

/-- Where nothing is asked for, nothing goes wrong. -/
theorem safe_true (hok : ∀ log s c, ok log s c) (p : Prog C R α) :
    Safe W ok (fun _ _ _ => True) p log s := by
  induction p generalizing log s with
  | pure a => trivial
  | call c k ih => exact fun s₁ _ => ⟨hok _ _ _, fun r _ _ => ih r⟩

theorem safe_bind {post : β → Log C R → σ → Prop} {p : Prog C R α} {f : α → Prog C R β}
    (h : Safe W ok (fun a log s => Safe W ok post (f a) log s) p log s) :
    Safe W ok post (p >>= f) log s := by
  induction p generalizing log s with
  | pure a => exact h
  | call c k ih =>
    intro s₁ hr
    obtain ⟨hok, hk⟩ := h s₁ hr
    exact ⟨hok, fun r s₂ ha => ih r (hk r s₂ ha)⟩

/-- One call. `P` is what is known of the state where the call is reached. -/
theorem safe_perform {c : C} {post : R c → Log C R → σ → Prop} {P : σ → Prop}
    (hP : W.Stable P) (hs : P s) (hok : ∀ s₁, P s₁ → ok log s₁ c)
    (h : ∀ s₁ r s₂, P s₁ → W.act s₁ c r s₂ → post r (⟨c, r⟩ :: log) s₂) :
    Safe W ok post (perform c) log s := by
  intro s₁ hr
  have h1 := hP.rely hs hr
  exact ⟨hok s₁ h1, fun r s₂ ha => h s₁ r s₂ h1 ha⟩

theorem safe_each {f : ι → Prog C R Unit} {P : Log C R → σ → Prop} {xs : List ι}
    (hf : ∀ x log s, P log s → Safe W ok (fun _ => P) (f x) log s) (hs : P log s) :
    Safe W ok (fun _ => P) (each f xs) log s := by
  induction xs generalizing log s with
  | nil => exact hs
  | cons x xs ih => exact safe_bind ((hf x log s hs).mono fun _ _ _ h => ih h)

/-- What the others do between two calls is already accounted for. -/
theorem Safe.env {p : Prog C R α} {s' : σ} (hpost : ∀ a log, W.Stable (post a log))
    (h : Safe W ok post p log s) (he : W.env s s') : Safe W ok post p log s' := by
  cases p with
  | pure a => exact hpost a log s s' h he
  | call c k => exact fun s₁ hr => h s₁ (hr.head he)

/-- `p`, started at `s` after `log`, returns `a` at `s'` after `log'`. -/
inductive Runs (W : World σ C R) : Prog C R α → Log C R → σ → α → Log C R → σ → Prop
  | ret (a : α) (log : Log C R) (s : σ) : Runs W (.pure a) log s a log s
  | call {c : C} {k : R c → Prog C R α} {log log' : Log C R} {s s₁ s₂ s' : σ} {r : R c} {a : α} :
      Relation.ReflTransGen W.env s s₁ → W.act s₁ c r s₂ →
      Runs W (k r) (⟨c, r⟩ :: log) s₂ a log' s' → Runs W (.call c k) log s a log' s'

theorem Runs.of_bind {p : Prog C R α} {f : α → Prog C R β} {b : β} {log' : Log C R} {s' : σ}
    (h : Runs W (p >>= f) log s b log' s') :
    ∃ a log₁ s₁, Runs W p log s a log₁ s₁ ∧ Runs W (f a) log₁ s₁ b log' s' := by
  induction p generalizing log s with
  | pure a => exact ⟨a, log, s, .ret a log s, h⟩
  | call c k ih =>
    cases h with
    | call henv hact h =>
      obtain ⟨a, log₁, s₁, hp, hf⟩ := ih _ h
      exact ⟨a, log₁, s₁, .call henv hact hp, hf⟩

theorem Runs.of_perform {c : C} {r : R c} {log' : Log C R} {s' : σ}
    (h : Runs W (perform c) log s r log' s') : log' = ⟨c, r⟩ :: log := by
  cases h with
  | call _ _ h =>
    cases h
    rfl

theorem Runs.of_pure {a b : α} {log' : Log C R} {s' : σ} (h : Runs W (.pure a) log s b log' s') :
    b = a ∧ log' = log := by
  cases h
  exact ⟨rfl, rfl⟩

theorem Safe.runs {p : Prog C R α} {a : α} {log' : Log C R} {s' : σ}
    (h : Safe W ok post p log s) (hr : Runs W p log s a log' s') : post a log' s' := by
  induction hr with
  | ret a log s => exact h
  | call henv hact _ ih => exact ih ((h _ henv).2 _ _ hact)

end Safe

/-! ## Which calls a program can make -/

section Only

variable {K : C → Prop}

/-- Every call of `p`, whatever the answers before it, meets `K`. -/
def Only (K : C → Prop) : Prog C R α → Prop
  | .pure _ => True
  | .call c k => K c ∧ ∀ r, Only K (k r)

theorem only_perform {c : C} (h : K c) : Only K (perform c : Prog C R (R c)) :=
  ⟨h, fun _ => trivial⟩

theorem only_bind {p : Prog C R α} {f : α → Prog C R β} (hp : Only K p) (hf : ∀ a, Only K (f a)) :
    Only K (p >>= f) := by
  induction p with
  | pure a => exact hf a
  | call c k ih => exact ⟨hp.1, fun r => ih r (hp.2 r)⟩

theorem only_each {f : ι → Prog C R Unit} (hf : ∀ x, Only K (f x)) :
    ∀ xs : List ι, Only K (each f xs)
  | [] => trivial
  | x :: xs => only_bind (hf x) fun _ => only_each hf xs

/-- What the others keep and every call of a kind keeps, a program of such calls keeps. -/
theorem safe_of_only {W : World σ C R} {ok : Log C R → σ → C → Prop} {P : Log C R → σ → Prop}
    (henv : ∀ log, W.Stable (P log)) (hok : ∀ log s c, K c → P log s → ok log s c)
    (hact : ∀ log s c r s', K c → P log s → W.act s c r s' → P (⟨c, r⟩ :: log) s')
    {p : Prog C R α} (hp : Only K p) {log : Log C R} {s : σ} (hs : P log s) :
    Safe W ok (fun _ => P) p log s := by
  induction p generalizing log s with
  | pure a => exact hs
  | call c k ih =>
    intro s₁ hr
    have h1 := (henv log).rely hs hr
    exact ⟨hok log s₁ c hp.1 h1, fun r s₂ ha => ih r (hp.2 r) (hact log s₁ c r s₂ hp.1 h1 ha)⟩

theorem Only.mono {L : C → Prop} {p : Prog C R α} (hp : Only K p) (h : ∀ c, K c → L c) : Only L p := by
  induction p with
  | pure a => trivial
  | call c k ih => exact ⟨h c hp.1, fun r => ih r (hp.2 r)⟩

/-- After a call that meets `K` every call meets `L`, whatever the answers. -/
def After (K L : C → Prop) : Prog C R α → Prop
  | .pure _ => True
  | .call c k => ∀ r, (K c → Only L (k r)) ∧ After K L (k r)

theorem after_of_only {L : C → Prop} {p : Prog C R α} (h : Only L p) : After K L p := by
  induction p with
  | pure a => trivial
  | call c k ih => exact fun r => ⟨fun _ => h.2 r, ih r (h.2 r)⟩

theorem after_bind {L : C → Prop} {p : Prog C R α} {f : α → Prog C R β}
    (hp : Only (fun c => ¬ K c) p) (hf : ∀ a, After K L (f a)) : After K L (p >>= f) := by
  induction p with
  | pure a => exact hf a
  | call c k ih => exact fun r => ⟨fun hc => absurd hc hp.1, ih r (hp.2 r)⟩

theorem after_perform_bind {L : C → Prop} {c : C} {f : R c → Prog C R β} (h : ∀ r, Only L (f r)) :
    After K L (perform c >>= f) :=
  fun r => ⟨fun _ => h r, after_of_only (h r)⟩

end Only

/-! ## Answering with a function -/

section Drive

variable (answer : σ → (c : C) → R c × σ)

/-- Run `p` to its end: what it returns, and the state it leaves. -/
def interp : Prog C R α → σ → α × σ
  | .pure a, s => (a, s)
  | .call c k, s => interp (k (answer s c).1) (answer s c).2

@[simp] theorem interp_pure (a : α) (s : σ) :
    interp answer (Pure.pure a : Prog C R α) s = (a, s) := rfl

@[simp] theorem interp_perform (c : C) (s : σ) : interp answer (perform c) s = answer s c := rfl

@[simp] theorem interp_bind (p : Prog C R α) (f : α → Prog C R β) (s : σ) :
    interp answer (p >>= f) s = interp answer (f (interp answer p s).1) (interp answer p s).2 := by
  induction p generalizing s with
  | pure a => rfl
  | call c k ih => exact ih _ _

/-- What every round of a loop keeps, the loop keeps. -/
theorem interp_each {f : ι → Prog C R Unit} {Q : σ → Prop} {xs : List ι}
    (hf : ∀ x s, Q s → Q (interp answer (f x) s).2) {s : σ} (hs : Q s) :
    Q (interp answer (each f xs) s).2 := by
  induction xs generalizing s with
  | nil => exact hs
  | cons x xs ih =>
    rw [each, interp_bind]
    exact ih (hf x s hs)

variable (stop : C → Bool)

/-- Run `p` up to the first call that meets `stop`: that call, with the log and the
state where it is made. -/
def drive : Prog C R α → Log C R → σ → Option (C × Log C R × σ)
  | .pure _, _, _ => none
  | .call c k, log, s =>
    if stop c then some (c, log, s)
    else drive (k (answer s c).1) (⟨c, (answer s c).1⟩ :: log) (answer s c).2

/-- Run `p` to its end: its log and the state it leaves. -/
def trace : Prog C R α → Log C R → σ → Log C R × σ
  | .pure _, log, s => (log, s)
  | .call c k, log, s => trace (k (answer s c).1) (⟨c, (answer s c).1⟩ :: log) (answer s c).2

variable {answer}

theorem trace_bind (p : Prog C R α) (f : α → Prog C R β) (log : Log C R) (s : σ) :
    trace answer (p >>= f) log s =
      trace answer (f (interp answer p s).1) (trace answer p log s).1 (trace answer p log s).2 := by
  induction p generalizing log s with
  | pure a => rfl
  | call c k ih => exact ih _ _ _

/-- A run only adds to its log. -/
theorem subset_trace (p : Prog C R α) (log : Log C R) (s : σ) : log ⊆ (trace answer p log s).1 := by
  induction p generalizing log s with
  | pure a => exact List.Subset.refl log
  | call c k ih => exact fun e he => ih _ _ _ (List.mem_cons_of_mem _ he)

/-- What a run adds to its log are calls the program can make. -/
theorem mem_trace_only {K : C → Prop} {p : Prog C R α} (hp : Only K p) {log : Log C R} {s : σ}
    {e : (c : C) × R c} (he : e ∈ (trace answer p log s).1) : e ∈ log ∨ K e.1 := by
  induction p generalizing log s with
  | pure a => exact Or.inl he
  | call c k ih =>
    obtain hlog | hnew := ih _ (hp.2 _) he
    · obtain rfl | hlog := List.mem_cons.1 hlog
      · exact Or.inr hp.1
      · exact Or.inl hlog
    · exact Or.inr hnew

/-- What a run adds to its log is answered as given. -/
theorem mem_trace_answer {Q : (c : C) → R c → Prop} (hQ : ∀ s c, Q c (answer s c).1)
    {p : Prog C R α} {log : Log C R} {s : σ} {e : (c : C) × R c}
    (he : e ∈ (trace answer p log s).1) : e ∈ log ∨ Q e.1 e.2 := by
  induction p generalizing log s with
  | pure a => exact Or.inl he
  | call c k ih =>
    obtain hlog | hnew := ih _ he
    · obtain rfl | hlog := List.mem_cons.1 hlog
      · exact Or.inr (hQ s c)
      · exact Or.inl hlog
    · exact Or.inr hnew

/-- A run against a function is a run of every world that answers as it did. -/
theorem runs_trace {W : World σ C R} {Q : (c : C) → R c → Prop}
    (hact : ∀ s c, Q c (answer s c).1 → W.act s c (answer s c).1 (answer s c).2) (p : Prog C R α)
    (log : Log C R) (s : σ) (hQ : ∀ e ∈ (trace answer p log s).1, Q e.1 e.2) :
    Runs W p log s (interp answer p s).1 (trace answer p log s).1 (trace answer p log s).2 := by
  induction p generalizing log s with
  | pure a => exact .ret a log s
  | call c k ih =>
    have hc : Q c (answer s c).1 := hQ ⟨c, (answer s c).1⟩
      (subset_trace (k (answer s c).1) _ _ List.mem_cons_self)
    exact .call .refl (hact s c hc) (ih _ _ _ hQ)

/-- The first call of a program is logged. -/
theorem mem_trace_perform_bind (c : C) (f : R c → Prog C R β) (log : Log C R) (s : σ) :
    ⟨c, (answer s c).1⟩ ∈ (trace answer (perform c >>= f) log s).1 :=
  subset_trace (f (answer s c).1) _ _ (List.mem_cons_self ..)

end Drive

end Prog

/-! ## Sessions -/

open Prog

/-- The program under way: what it was started for and where, and its calls so far. -/
structure Running (σ ι C : Type) (R : C → Type) where
  origin : ι
  start : σ
  log : Log C R
  prog : Prog C R Unit

structure Session (σ ι C : Type) (R : C → Type) where
  state : σ
  running : Option (Running σ ι C R)

namespace Session

variable {σ ι C : Type} {R : C → Type}

inductive Label (ι C : Type) (R : C → Type)
  | start (i : ι)
  | env
  | call (c : C) (r : R c)
  | stop

variable (W : World σ C R) (progs : ι → Prog C R Unit)

/-- `stop` ends a program that returned, and cuts off one that did not. -/
inductive Step : Session σ ι C R → Label ι C R → Session σ ι C R → Prop
  | start (s : σ) (i : ι) : Step ⟨s, none⟩ (.start i) ⟨s, some ⟨i, s, [], progs i⟩⟩
  | env {s s' : σ} {r : Option (Running σ ι C R)} : W.env s s' → Step ⟨s, r⟩ .env ⟨s', r⟩
  | call {s s' : σ} {i : ι} {s₀ : σ} {log : Log C R} {c : C} {k : R c → Prog C R Unit} {r : R c} :
      W.act s c r s' →
      Step ⟨s, some ⟨i, s₀, log, .call c k⟩⟩ (.call c r) ⟨s', some ⟨i, s₀, ⟨c, r⟩ :: log, k r⟩⟩
  | stop (s : σ) (r : Running σ ι C R) : Step ⟨s, some r⟩ .stop ⟨s, none⟩

def sessions : LTS (Session σ ι C R) (Label ι C R) where
  init S := S.running = none
  step := Step W progs

variable {W progs} {ok : ι → σ → Log C R → σ → C → Prop}
  {post : ι → σ → Unit → Log C R → σ → Prop}

theorem inductive_safe (hpost : ∀ i s a log, W.Stable (post i s a log))
    (h : ∀ i s, Safe W (ok i s) (post i s) (progs i) [] s) :
    (sessions W progs).Inductive fun S =>
      ∀ r ∈ S.running, Safe W (ok r.origin r.start) (post r.origin r.start) r.prog r.log S.state where
  init S h0 r hr := by
    have h0 : S.running = none := h0
    simp [h0] at hr
  step S l S' ih hst r hr := by
    cases hst with
    | start s i => cases hr; exact h i s
    | env he => exact (ih r hr).env (hpost r.origin r.start) he
    | call ha => cases hr; exact ((ih _ rfl) _ .refl).2 _ _ ha
    | stop s r' => cases hr

/-- Every call of every run is made where it is allowed. -/
theorem safe (h : ∀ i s, Safe W (ok i s) (fun _ _ _ => True) (progs i) [] s)
    {S : Session σ ι C R} (hS : (sessions W progs).Reachable S) {i : ι} {s₀ : σ} {log : Log C R}
    {c : C} {k : R c → Prog C R Unit} (hr : S.running = some ⟨i, s₀, log, .call c k⟩) :
    ok i s₀ log S.state c :=
  (((inductive_safe (fun _ _ _ _ _ _ _ _ => trivial) h).reachable S hS _ hr) _ .refl).1

/-- Where a program has returned, its postcondition holds. -/
theorem returned (hpost : ∀ i s a log, W.Stable (post i s a log))
    (h : ∀ i s, Safe W (ok i s) (post i s) (progs i) [] s) {S : Session σ ι C R}
    (hS : (sessions W progs).Reachable S) {i : ι} {s₀ : σ} {log : Log C R}
    (hr : S.running = some ⟨i, s₀, log, .pure ()⟩) : post i s₀ () log S.state :=
  (inductive_safe hpost h).reachable S hS _ hr

theorem reachable_drive {answer : σ → (c : C) → R c × σ} {stop : C → Bool}
    (ha : ∀ s c, W.act s c (answer s c).1 (answer s c).2) {i : ι} {s₀ : σ} :
    ∀ {p : Prog C R Unit} {log : Log C R} {s : σ} {c : C} {log' : Log C R} {s' : σ},
      (sessions W progs).Reachable ⟨s, some ⟨i, s₀, log, p⟩⟩ →
      drive answer stop p log s = some (c, log', s') →
      ∃ k, (sessions W progs).Reachable ⟨s', some ⟨i, s₀, log', .call c k⟩⟩
  | .pure _, _, _, _, _, _, _, hd => by simp [drive] at hd
  | .call c k, log, s, c', log', s', hr, hd => by
    by_cases hc : stop c
    · simp only [drive, hc, if_true, Option.some.injEq, Prod.mk.injEq] at hd
      obtain ⟨rfl, rfl, rfl⟩ := hd
      exact ⟨k, hr⟩
    · simp only [drive, hc, Bool.false_eq_true, if_false] at hd
      exact reachable_drive ha (.step hr (.call (ha s c))) hd

theorem reachable_trace {answer : σ → (c : C) → R c × σ}
    (ha : ∀ s c, W.act s c (answer s c).1 (answer s c).2) {i : ι} {s₀ : σ} :
    ∀ {p : Prog C R Unit} {log : Log C R} {s : σ},
      (sessions W progs).Reachable ⟨s, some ⟨i, s₀, log, p⟩⟩ →
      (sessions W progs).Reachable ⟨(trace answer p log s).2,
        some ⟨i, s₀, (trace answer p log s).1, .pure ()⟩⟩
  | .pure _, _, _, hr => hr
  | .call c k, log, s, hr => by
    have h1 : (sessions W progs).Reachable
        ⟨(answer s c).2, some ⟨i, s₀, ⟨c, (answer s c).1⟩ :: log, k (answer s c).1⟩⟩ :=
      .step hr (.call (ha s c))
    have h2 := reachable_trace ha h1
    exact h2

/-- A session that has just started `i`. -/
theorem reachable_start (s : σ) (i : ι) :
    (sessions W progs).Reachable ⟨s, some ⟨i, s, [], progs i⟩⟩ := by
  have h0 : (sessions W progs).init ⟨s, none⟩ := rfl
  exact .step (.init h0) (.start s i)

end Session

end Crawlrs
