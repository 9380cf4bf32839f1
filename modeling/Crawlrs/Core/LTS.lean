import Mathlib.Logic.Basic

/-!
# Labelled transition systems

Safety arguments of the development are stated over `LTS`: an initial-state
predicate and a labelled step relation. `Reachable` is the set of states of
all runs, `Steps s tr s'` one finite run with its labels.

* `Inductive.reachable`: an inductive predicate holds in every reachable state.
* `Inductive.within`: induction relative to an invariant already proved.
* `Steps.preserves`: a predicate kept by every step whose label (and pre-state)
  is admitted holds at the end of every run of such steps.
* `restrict`: the runs whose steps all meet a side condition.
* `Simulation.reachable`: a system whose steps are matched by runs of another one
  reaches nothing that the other does not.
* `runFn`, `replay`: run a list of labels of a system given by a step function.
-/
namespace Crawlrs

structure LTS (σ ℓ : Type) where
  init : σ → Prop
  step : σ → ℓ → σ → Prop

namespace LTS

variable {σ ℓ : Type}

/-- The system of a partial step function. -/
def ofFn (init : σ → Prop) (f : σ → ℓ → Option σ) : LTS σ ℓ where
  init := init
  step s l s' := f s l = some s'

/-- The same system with only the steps that meet `ok` where they start. -/
def restrict (L : LTS σ ℓ) (ok : σ → ℓ → Prop) : LTS σ ℓ where
  init := L.init
  step s l s' := ok s l ∧ L.step s l s'

inductive Reachable (L : LTS σ ℓ) : σ → Prop
  | init {s : σ} : L.init s → Reachable L s
  | step {s s' : σ} {l : ℓ} : Reachable L s → L.step s l s' → Reachable L s'

/-- `Steps s tr s'`: the labels `tr`, in order, lead from `s` to `s'`. -/
inductive Steps (L : LTS σ ℓ) : σ → List ℓ → σ → Prop
  | nil (s : σ) : Steps L s [] s
  | cons {s s' s'' : σ} {l : ℓ} {tr : List ℓ} :
      L.step s l s' → Steps L s' tr s'' → Steps L s (l :: tr) s''

/-- An inductive predicate: true initially, kept by every step. -/
structure Inductive (L : LTS σ ℓ) (I : σ → Prop) : Prop where
  init : ∀ s, L.init s → I s
  step : ∀ s l s', I s → L.step s l s' → I s'

theorem Inductive.reachable {L : LTS σ ℓ} {I : σ → Prop} (h : L.Inductive I) (s : σ)
    (hs : L.Reachable s) : I s := by
  induction hs with
  | init h0 => exact h.init _ h0
  | step _ hst ih => exact h.step _ _ _ ih hst

/-- Induction relative to a predicate that is already inductive. -/
theorem Inductive.within {L : LTS σ ℓ} {I J : σ → Prop} (hJ : L.Inductive J)
    (h0 : ∀ s, L.init s → I s)
    (hst : ∀ s l s', J s → I s → L.step s l s' → I s') : L.Inductive (fun s => J s ∧ I s) where
  init s h := ⟨hJ.init s h, h0 s h⟩
  step s l s' h hs := ⟨hJ.step s l s' h.1 hs, hst s l s' h.1 h.2 hs⟩

theorem Steps.append {L : LTS σ ℓ} {s s' s'' : σ} {tr tr' : List ℓ} (h : L.Steps s tr s')
    (h' : L.Steps s' tr' s'') : L.Steps s (tr ++ tr') s'' := by
  induction h with
  | nil _ => exact h'
  | cons hst _ ih => exact .cons hst (ih h')

/-- The last step of a run, split off. -/
theorem Steps.of_append_singleton {L : LTS σ ℓ} {s s'' : σ} {tr : List ℓ} {l : ℓ}
    (h : L.Steps s (tr ++ [l]) s'') : ∃ s', L.Steps s tr s' ∧ L.step s' l s'' := by
  induction tr generalizing s with
  | nil =>
    cases h with
    | cons hst hnil =>
      cases hnil
      exact ⟨s, .nil s, hst⟩
  | cons a tr ih =>
    cases h with
    | cons hst hrest =>
      obtain ⟨s', hs', hlast⟩ := ih hrest
      exact ⟨s', .cons hst hs', hlast⟩

theorem Reachable.steps {L : LTS σ ℓ} {s s' : σ} {tr : List ℓ} (hs : L.Reachable s)
    (h : L.Steps s tr s') : L.Reachable s' := by
  induction h with
  | nil _ => exact hs
  | cons hst _ ih => exact ih (.step hs hst)

/-- A predicate kept by every admitted step holds after a run of admitted steps. -/
theorem Steps.preserves {L : LTS σ ℓ} {P : σ → Prop} {Q : ℓ → Prop}
    (hst : ∀ s l s', P s → Q l → L.step s l s' → P s') {s s' : σ} {tr : List ℓ}
    (h : L.Steps s tr s') (hok : ∀ l ∈ tr, Q l) (hs : P s) : P s' := by
  induction h with
  | nil _ => exact hs
  | cons h1 _ ih =>
    exact ih (fun l hl => hok l (List.mem_cons_of_mem _ hl))
      (hst _ _ _ hs (hok _ List.mem_cons_self) h1)

/-- A predicate kept by every step holds after every run. -/
theorem Steps.stable {L : LTS σ ℓ} {P : σ → Prop} (hst : ∀ s l s', P s → L.step s l s' → P s')
    {s s' : σ} {tr : List ℓ} (h : L.Steps s tr s') (hs : P s) : P s' :=
  h.preserves (Q := fun _ => True) (fun s l s' hp _ => hst s l s' hp) (fun _ _ => trivial) hs

theorem Reachable.of_restrict {L : LTS σ ℓ} {ok : σ → ℓ → Prop} {s : σ}
    (h : (L.restrict ok).Reachable s) : L.Reachable s := by
  induction h with
  | init h0 => exact .init h0
  | step _ hst ih => exact .step ih hst.2

theorem Steps.of_restrict {L : LTS σ ℓ} {ok : σ → ℓ → Prop} {s s' : σ} {tr : List ℓ}
    (h : (L.restrict ok).Steps s tr s') : L.Steps s tr s' := by
  induction h with
  | nil s => exact .nil s
  | cons hst _ ih => exact .cons hst.2 ih

/-- An inductive predicate stays inductive when steps are taken away. -/
theorem Inductive.restrict {L : LTS σ ℓ} {I : σ → Prop} (h : L.Inductive I)
    (ok : σ → ℓ → Prop) : (L.restrict ok).Inductive I where
  init := h.init
  step s l s' hi hs := h.step s l s' hi hs.2

/-! ## Simulation -/

/-- Every step of `L` is a run of `M`, from related states to related states. -/
structure Simulation {τ κ : Type} (L : LTS σ ℓ) (M : LTS τ κ) (R : σ → τ → Prop) : Prop where
  init : ∀ s, L.init s → ∃ t, M.init t ∧ R s t
  step : ∀ s l s' t, R s t → L.step s l s' → ∃ tr t', M.Steps t tr t' ∧ R s' t'

theorem Simulation.steps {τ κ : Type} {L : LTS σ ℓ} {M : LTS τ κ} {R : σ → τ → Prop}
    (h : L.Simulation M R) {s s' : σ} {tr : List ℓ} (hs : L.Steps s tr s') {t : τ} (hR : R s t) :
    ∃ tr' t', M.Steps t tr' t' ∧ R s' t' := by
  induction hs generalizing t with
  | nil s => exact ⟨[], t, .nil t, hR⟩
  | cons hst _ ih =>
    obtain ⟨tr₁, t₁, h₁, hR₁⟩ := h.step _ _ _ t hR hst
    obtain ⟨tr₂, t₂, h₂, hR₂⟩ := ih hR₁
    exact ⟨tr₁ ++ tr₂, t₂, h₁.append h₂, hR₂⟩

theorem Simulation.reachable {τ κ : Type} {L : LTS σ ℓ} {M : LTS τ κ} {R : σ → τ → Prop}
    (h : L.Simulation M R) {s : σ} (hs : L.Reachable s) : ∃ t, M.Reachable t ∧ R s t := by
  induction hs with
  | init h0 =>
    obtain ⟨t, ht, hR⟩ := h.init _ h0
    exact ⟨t, .init ht, hR⟩
  | step _ hst ih =>
    obtain ⟨t, ht, hR⟩ := ih
    obtain ⟨tr, t', hsteps, hR'⟩ := h.step _ _ _ t hR hst
    exact ⟨t', ht.steps hsteps, hR'⟩

/-! ## Replaying a list of labels -/

/-- The state after a list of labels, `none` when one of them is disabled. -/
def runFn (f : σ → ℓ → Option σ) : σ → List ℓ → Option σ
  | s, [] => some s
  | s, l :: tr => (f s l).bind fun s' => runFn f s' tr

/-- The step function of a restricted system. -/
def guarded (ok : σ → ℓ → Prop) [∀ s l, Decidable (ok s l)] (f : σ → ℓ → Option σ) (s : σ) (l : ℓ) :
    Option σ := if ok s l then f s l else none

theorem Steps.of_guarded {init : σ → Prop} {ok : σ → ℓ → Prop} [∀ s l, Decidable (ok s l)]
    {f : σ → ℓ → Option σ} {s s' : σ} {tr : List ℓ} (h : (ofFn init (guarded ok f)).Steps s tr s') :
    ((ofFn init f).restrict ok).Steps s tr s' := by
  induction h with
  | nil s => exact .nil s
  | cons hst _ ih =>
    simp only [ofFn, guarded, Option.ite_none_right_eq_some] at hst
    exact .cons hst ih

theorem steps_of_runFn {init : σ → Prop} {f : σ → ℓ → Option σ} :
    ∀ {tr : List ℓ} {s s' : σ}, runFn f s tr = some s' → (ofFn init f).Steps s tr s'
  | [], s, s', h => by
    simp only [runFn, Option.some.injEq] at h; subst h; exact .nil s
  | l :: tr, s, s', h => by
    simp only [runFn, Option.bind_eq_some_iff] at h
    obtain ⟨s1, h1, h2⟩ := h
    exact .cons h1 (steps_of_runFn h2)

theorem runFn_of_guarded {ok : σ → ℓ → Prop} [∀ s l, Decidable (ok s l)] {f : σ → ℓ → Option σ} :
    ∀ {tr : List ℓ} {s s' : σ}, runFn (guarded ok f) s tr = some s' → runFn f s tr = some s'
  | [], _, _, h => h
  | l :: tr, s, s', h => by
    simp only [runFn, guarded, Option.bind_eq_some_iff, Option.ite_none_right_eq_some] at h ⊢
    obtain ⟨s1, ⟨-, h1⟩, h2⟩ := h
    exact ⟨s1, h1, runFn_of_guarded h2⟩

/-- The state after a list of labels that are all enabled. -/
def replay (f : σ → ℓ → Option σ) (s : σ) (tr : List ℓ) : σ := (runFn f s tr).getD s

theorem steps_replay {init : σ → Prop} {f : σ → ℓ → Option σ} {s : σ} {tr : List ℓ}
    (h : (runFn f s tr).isSome) : (ofFn init f).Steps s tr (replay f s tr) := by
  obtain ⟨s', hs'⟩ := Option.isSome_iff_exists.1 h
  rw [replay, hs']
  exact steps_of_runFn hs'

/-- A list of labels that all meet the side condition leads to the state they replay to. -/
theorem restrict_steps_replay {init : σ → Prop} {ok : σ → ℓ → Prop} [∀ s l, Decidable (ok s l)]
    {f : σ → ℓ → Option σ} {s : σ} {tr : List ℓ} (h : (runFn (guarded ok f) s tr).isSome) :
    ((ofFn init f).restrict ok).Steps s tr (replay f s tr) := by
  obtain ⟨s', hs'⟩ := Option.isSome_iff_exists.1 h
  rw [replay, runFn_of_guarded hs', Option.getD_some]
  exact .of_guarded (steps_of_runFn hs')

end LTS

end Crawlrs
