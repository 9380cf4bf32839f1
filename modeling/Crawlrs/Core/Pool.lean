import Crawlrs.Core.Prog

/-!
# Programs beside one another

A `Pool` is a shared state with any number of programs under way in it. One step
starts a program, executes the next call of one of them, takes the result of one
that has returned, or drops one where it is (its process is gone). Nothing else
orders the programs.

`Service` says what the programs are and what a call does to the shared state.

* `simulation`: a pool is simulated by a system `M` when each call and each result is
  a step of `M` or nothing to it, and each program is `Safe` against everything `M`
  can do between two of its calls.
* `steps_alone`: a program that runs alone, answered by a function, is a run of the
  pool.
-/
namespace Crawlrs

open Prog (Log Safe)

structure Pool (σ C : Type) (R : C → Type) (α : Type) where
  state : σ
  tasks : List (Prog C R α)

/-- `starts`: what may be started where; `exec`: a call, its answer, and the state after it;
`finish`: what is kept of a result. -/
structure Service (σ ι C : Type) (R : C → Type) (α : Type) where
  init : σ → Prop
  prog : ι → Prog C R α
  starts : σ → ι → Prop
  exec : σ → (c : C) → R c → σ → Prop
  finish : σ → α → σ

namespace Service

variable {σ ι τ κ C α : Type} {R : C → Type}

inductive Label (ι C : Type) (R : C → Type)
  | start (i : ι)
  | call (n : Nat) (c : C) (r : R c)
  | finish (n : Nat)
  | drop (n : Nat)

variable (V : Service σ ι C R α)

inductive Step : Pool σ C R α → Label ι C R → Pool σ C R α → Prop
  | start {s : σ} {ts : List (Prog C R α)} {i : ι} :
      V.starts s i → Step ⟨s, ts⟩ (.start i) ⟨s, ts ++ [V.prog i]⟩
  | call {s s' : σ} {pre post : List (Prog C R α)} {c : C} {k : R c → Prog C R α} {r : R c} :
      V.exec s c r s' →
      Step ⟨s, pre ++ .call c k :: post⟩ (.call pre.length c r) ⟨s', pre ++ k r :: post⟩
  | finish {s : σ} {pre post : List (Prog C R α)} {a : α} :
      Step ⟨s, pre ++ .pure a :: post⟩ (.finish pre.length) ⟨V.finish s a, pre ++ post⟩
  | drop {s : σ} {pre post : List (Prog C R α)} {p : Prog C R α} :
      Step ⟨s, pre ++ p :: post⟩ (.drop pre.length) ⟨s, pre ++ post⟩

def pools : LTS (Pool σ C R α) (Label ι C R) where
  init S := V.init S.state ∧ S.tasks = []
  step := V.Step

/-- Between two calls of a program anything `M` can do may happen. -/
def worldOf (M : LTS τ κ) (act : τ → (c : C) → R c → τ → Prop) : World τ C R where
  env t t' := ∃ l, M.step t l t'
  act := act

variable {V} {M : LTS τ κ} {act : τ → (c : C) → R c → τ → Prop} {Rel : σ → τ → Prop}
  {ok : Log C R → τ → C → Prop} {post : α → Log C R → τ → Prop}

/-- What the programs under way are good for, seen from `t`. -/
def AllSafe (M : LTS τ κ) (act : τ → (c : C) → R c → τ → Prop) (ok : Log C R → τ → C → Prop)
    (post : α → Log C R → τ → Prop) (ts : List (Prog C R α)) (t : τ) : Prop :=
  ∀ p ∈ ts, ∃ log, Safe (worldOf M act) ok post p log t

/-- A step of `M` is no surprise to any program. -/
theorem AllSafe.step (hpost : ∀ a log, (worldOf M act).Stable (post a log))
    {ts : List (Prog C R α)} {t t' : τ} (h : AllSafe M act ok post ts t)
    (ht : t' = t ∨ ∃ l, M.step t l t') : AllSafe M act ok post ts t' := by
  obtain rfl | hst := ht
  · exact h
  · intro p hp
    obtain ⟨log, hs⟩ := h p hp
    exact ⟨log, hs.env hpost hst⟩

theorem AllSafe.subset {ts ts' : List (Prog C R α)} {t : τ} (h : AllSafe M act ok post ts t)
    (hsub : ts' ⊆ ts) : AllSafe M act ok post ts' t := fun p hp => h p (hsub hp)

/-- **Pools and what they do to a part of their state.** -/
theorem simulation (hinit : ∀ s, V.init s → ∃ t, M.init t ∧ Rel s t)
    (hstart : ∀ s t i, Rel s t → V.starts s i →
      Safe (worldOf M act) ok post (V.prog i) [] t)
    (hexec : ∀ s t log c r s', Rel s t → ok log t c → V.exec s c r s' →
      ∃ t', act t c r t' ∧ (t' = t ∨ ∃ l, M.step t l t') ∧ Rel s' t')
    (hfinish : ∀ s t a log, Rel s t → post a log t →
      ∃ t', (t' = t ∨ ∃ l, M.step t l t') ∧ Rel (V.finish s a) t')
    (hpost : ∀ a log, (worldOf M act).Stable (post a log)) :
    V.pools.Simulation M fun S t => Rel S.state t ∧ AllSafe M act ok post S.tasks t where
  init := by
    rintro ⟨s, ts⟩ ⟨h0, hts⟩
    obtain ⟨t, ht, hR⟩ := hinit s h0
    refine ⟨t, ht, hR, ?_⟩
    intro p hp
    have hts : ts = [] := hts
    simp [hts] at hp
  step := by
    rintro S l S' t ⟨hR, hsafe⟩ hst
    cases hst with
    | @start s ts i hs =>
      refine ⟨[], t, .nil t, hR, ?_⟩
      intro p hp
      obtain hp | hp := List.mem_append.1 hp
      · exact hsafe p hp
      · rw [List.mem_singleton.1 hp]
        exact ⟨[], hstart s t i hR hs⟩
    | @call s s' pre rest c k r he =>
      obtain ⟨log, hp⟩ := hsafe (.call c k) (by simp)
      obtain ⟨hok, hk⟩ := hp t .refl
      obtain ⟨t', hact, hmove, hR'⟩ := hexec s t log c r s' hR hok he
      have hothers : AllSafe M act ok post (pre ++ rest) t' :=
        (hsafe.subset (by simp)).step hpost hmove
      have hall : AllSafe M act ok post (pre ++ k r :: rest) t' := by
        intro p hp
        obtain hp | rfl | hp : p ∈ pre ∨ p = k r ∨ p ∈ rest := by simpa using hp
        · exact hothers p (List.mem_append_left _ hp)
        · exact ⟨_, hk r t' hact⟩
        · exact hothers p (List.mem_append_right _ hp)
      obtain rfl | ⟨l, hl⟩ := hmove
      · exact ⟨[], t', .nil t', hR', hall⟩
      · exact ⟨[l], t', .cons hl (.nil t'), hR', hall⟩
    | @finish s pre rest a =>
      obtain ⟨log, hp⟩ := hsafe (.pure a) (by simp)
      obtain ⟨t', hmove, hR'⟩ := hfinish s t a log hR hp
      have hall : AllSafe M act ok post (pre ++ rest) t' :=
        (hsafe.subset (by simp)).step hpost hmove
      obtain rfl | ⟨l, hl⟩ := hmove
      · exact ⟨[], t', .nil t', hR', hall⟩
      · exact ⟨[l], t', .cons hl (.nil t'), hR', hall⟩
    | @drop s pre rest p => exact ⟨[], t, .nil t, hR, hsafe.subset (by simp)⟩

/-! ## A program that runs alone -/

section Alone

variable (V) (answer : σ → (c : C) → R c × σ)

/-- The state after `i` has been started, has run to its end and its result has been taken. -/
def alone (i : ι) (s : σ) : σ :=
  V.finish (Prog.interp answer (V.prog i) s).2 (Prog.interp answer (V.prog i) s).1

variable {V answer}

theorem steps_interp (h : ∀ s c, V.exec s c (answer s c).1 (answer s c).2) (p : Prog C R α) :
    ∀ s, ∃ tr, V.pools.Steps ⟨s, [p]⟩ tr
      ⟨(Prog.interp answer p s).2, [.pure (Prog.interp answer p s).1]⟩ := by
  induction p with
  | pure a => exact fun s => ⟨[], .nil _⟩
  | call c k ih =>
    intro s
    obtain ⟨tr, htr⟩ := ih (answer s c).1 (answer s c).2
    have hcall : V.Step ⟨s, [] ++ [.call c k]⟩ (.call ([] : List (Prog C R α)).length c (answer s c).1)
        ⟨(answer s c).2, [] ++ [k (answer s c).1]⟩ := .call (h s c)
    exact ⟨_ :: tr, .cons hcall htr⟩

theorem steps_alone (h : ∀ s c, V.exec s c (answer s c).1 (answer s c).2) {s : σ} {i : ι}
    (hi : V.starts s i) : ∃ tr, V.pools.Steps ⟨s, []⟩ tr ⟨V.alone answer i s, []⟩ := by
  obtain ⟨tr, htr⟩ := steps_interp h (V.prog i) s
  have hstart : V.Step ⟨s, []⟩ (.start i) ⟨s, [V.prog i]⟩ := .start hi
  have hfinish : V.Step
      ⟨(Prog.interp answer (V.prog i) s).2, [] ++ [.pure (Prog.interp answer (V.prog i) s).1]⟩
      (.finish ([] : List (Prog C R α)).length) ⟨V.alone answer i s, [] ++ []⟩ := .finish
  exact ⟨_, (htr.append (.cons hfinish (.nil _))).cons hstart⟩

/-- The same run, with its first call in view. -/
theorem steps_first (h : ∀ s c, V.exec s c (answer s c).1 (answer s c).2) {s : σ} {i : ι}
    (hi : V.starts s i) {c : C} {k : R c → Prog C R α} (hk : V.prog i = .call c k) : ∃ S S' tr,
      V.pools.step ⟨s, []⟩ (.start i) S ∧ V.pools.step S (.call 0 c (answer s c).1) S' ∧
        V.pools.Steps S' tr ⟨V.alone answer i s, []⟩ := by
  obtain ⟨tr, htr⟩ := steps_interp h (k (answer s c).1) (answer s c).2
  have hstart : V.Step ⟨s, []⟩ (.start i) ⟨s, [] ++ [V.prog i]⟩ := .start hi
  have hcall : V.Step ⟨s, [] ++ [V.prog i]⟩ (.call ([] : List (Prog C R α)).length c (answer s c).1)
      ⟨(answer s c).2, [] ++ [k (answer s c).1]⟩ := by
    rw [hk]
    exact .call (h s c)
  have hfinish : V.Step
      ⟨(Prog.interp answer (V.prog i) s).2, [] ++ [.pure (Prog.interp answer (V.prog i) s).1]⟩
      (.finish ([] : List (Prog C R α)).length) ⟨V.alone answer i s, [] ++ []⟩ := .finish
  rw [hk] at hfinish
  exact ⟨_, _, _, hstart, hcall, htr.append (.cons hfinish (.nil _))⟩

end Alone

end Service

end Crawlrs
