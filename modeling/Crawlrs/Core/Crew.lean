import Crawlrs.Core.Prog

/-!
# Programs that share a state, with their logs

A `Crew` is a shared state with any number of members at work on it: a member is a
program under way, what it was started for, and its calls so far with their answers.
One step starts a member, makes the next call of one, cuts one off where it is, or is
something that happens to the state by itself. `Session` is the crew of one, `Pool` the crew
that keeps neither origin nor log.

* `rely_guarantee`: if every program is `Safe` against a `rely` that covers what the
  others and the environment do, and each call that is made where it is allowed keeps
  the invariant and stays within the rely, then so does every run.
* `reachable_drive`, `reachable_trace`: a member that works alone, answered by a function.
-/
namespace Crawlrs

open Prog (Log Safe drive trace)

/-- `starts`: what may be started where; `env`: what happens by itself; `act`: a call of a member
that was started for `ι`, its answer, and the state after it. -/
structure Crew (σ ι C : Type) (R : C → Type) where
  init : σ → Prop
  prog : ι → Prog C R Unit
  starts : σ → ι → Prop
  env : σ → σ → Prop
  act : ι → σ → (c : C) → R c → σ → Prop

namespace Crew

variable {σ ι C : Type} {R : C → Type}

/-- A program under way. -/
structure Member (ι C : Type) (R : C → Type) where
  origin : ι
  log : Log C R
  prog : Prog C R Unit

structure State (σ ι C : Type) (R : C → Type) where
  shared : σ
  members : List (Member ι C R)

inductive Label (ι C : Type) (R : C → Type)
  | start (i : ι)
  | env
  | call (n : Nat) (c : C) (r : R c)
  | stop (n : Nat)

variable (V : Crew σ ι C R)

inductive Step : State σ ι C R → Label ι C R → State σ ι C R → Prop
  | start {s : σ} {ts : List (Member ι C R)} {i : ι} :
      V.starts s i → Step ⟨s, ts⟩ (.start i) ⟨s, ts ++ [⟨i, [], V.prog i⟩]⟩
  | env {s s' : σ} {ts : List (Member ι C R)} : V.env s s' → Step ⟨s, ts⟩ .env ⟨s', ts⟩
  | call {s s' : σ} {pre post : List (Member ι C R)} {i : ι} {log : Log C R} {c : C}
      {k : R c → Prog C R Unit} {r : R c} :
      V.act i s c r s' →
      Step ⟨s, pre ++ ⟨i, log, .call c k⟩ :: post⟩ (.call pre.length c r)
        ⟨s', pre ++ ⟨i, ⟨c, r⟩ :: log, k r⟩ :: post⟩
  | stop {s : σ} {pre post : List (Member ι C R)} {t : Member ι C R} :
      Step ⟨s, pre ++ t :: post⟩ (.stop pre.length) ⟨s, pre ++ post⟩

def runs : LTS (State σ ι C R) (Label ι C R) where
  init S := V.init S.shared ∧ S.members = []
  step := V.Step

variable {V} {inv : σ → Prop} {rely : σ → σ → Prop} {ok : ι → Log C R → σ → C → Prop}

/-- A member, seen against the rely. -/
def MemberSafe (V : Crew σ ι C R) (rely : σ → σ → Prop) (ok : ι → Log C R → σ → C → Prop) (s : σ)
    (t : Member ι C R) : Prop :=
  Safe ⟨rely, V.act t.origin⟩ (ok t.origin) (fun _ _ _ => True) t.prog t.log s

theorem MemberSafe.moved {s s' : σ} {t : Member ι C R} (h : MemberSafe V rely ok s t) (hs : rely s s') :
    MemberSafe V rely ok s' t :=
  Safe.env (W := ⟨rely, V.act t.origin⟩) (fun _ _ _ _ _ _ => trivial) h hs

/-- **Rely and guarantee.** -/
theorem rely_guarantee (hinit : ∀ s, V.init s → inv s)
    (henv : ∀ s s', inv s → V.env s s' → inv s' ∧ rely s s')
    (hact : ∀ i s log c r s', inv s → ok i log s c → V.act i s c r s' → inv s' ∧ rely s s')
    (hsafe : ∀ s i, inv s → V.starts s i → MemberSafe V rely ok s ⟨i, [], V.prog i⟩) :
    V.runs.Inductive fun S => inv S.shared ∧ ∀ t ∈ S.members, MemberSafe V rely ok S.shared t where
  init S h0 := by
    refine ⟨hinit _ h0.1, fun t ht => ?_⟩
    rw [h0.2] at ht
    cases ht
  step := by
    rintro S l S' ⟨hinv, hts⟩ hst
    cases hst with
    | @start s ts i hs =>
      refine ⟨hinv, fun t ht => ?_⟩
      obtain ht | ht := List.mem_append.1 ht
      · exact hts t ht
      · rw [List.mem_singleton.1 ht]
        exact hsafe s i hinv hs
    | @env s s' ts he =>
      obtain ⟨hinv', hr⟩ := henv s s' hinv he
      exact ⟨hinv', fun t ht => (hts t ht).moved hr⟩
    | @call s s' pre post i log c k r ha =>
      obtain ⟨hok, hk⟩ := hts ⟨i, log, .call c k⟩ (by simp) s .refl
      obtain ⟨hinv', hr⟩ := hact i s log c r s' hinv hok ha
      refine ⟨hinv', fun t ht => ?_⟩
      obtain ht | rfl | ht : t ∈ pre ∨ t = ⟨i, ⟨c, r⟩ :: log, k r⟩ ∨ t ∈ post := by simpa using ht
      · exact (hts t (by simp [ht])).moved hr
      · exact hk r s' ha
      · exact (hts t (by simp [ht])).moved hr
    | stop =>
      refine ⟨hinv, fun t ht => hts t ?_⟩
      obtain ht | ht := List.mem_append.1 ht
      · exact List.mem_append_left _ ht
      · exact List.mem_append_right _ (List.mem_cons_of_mem _ ht)

/-- Where the next call of a safe member is made, it is allowed. -/
theorem MemberSafe.next {s : σ} {i : ι} {log : Log C R} {c : C} {k : R c → Prog C R Unit}
    (h : MemberSafe V rely ok s ⟨i, log, .call c k⟩) : ok i log s c :=
  (h s .refl).1

/-! ## A member that works alone -/

theorem reachable_start {s : σ} {i : ι} (hs : V.runs.Reachable ⟨s, []⟩) (hi : V.starts s i) :
    V.runs.Reachable ⟨s, [⟨i, [], V.prog i⟩]⟩ := by
  have hst : V.Step ⟨s, []⟩ (.start i) ⟨s, [] ++ [⟨i, [], V.prog i⟩]⟩ := .start hi
  exact .step hs hst

section Alone

variable {answer : σ → (c : C) → R c × σ} {i : ι}

theorem reachable_drive (ha : ∀ s c, V.act i s c (answer s c).1 (answer s c).2) {stop : C → Bool}
    {p : Prog C R Unit} : ∀ {log log' : Log C R} {s s' : σ} {c : C},
      V.runs.Reachable ⟨s, [⟨i, log, p⟩]⟩ → drive answer stop p log s = some (c, log', s') →
      ∃ k, V.runs.Reachable ⟨s', [⟨i, log', .call c k⟩]⟩ := by
  induction p with
  | pure a =>
    intro log log' s s' c _ hd
    simp [drive] at hd
  | call c₀ k ih =>
    intro log log' s s' c hr hd
    rw [drive] at hd
    split at hd
    · obtain ⟨rfl, rfl, rfl⟩ : c₀ = c ∧ log = log' ∧ s = s' := by simpa using hd
      exact ⟨k, hr⟩
    · have hst : V.Step ⟨s, [] ++ [⟨i, log, .call c₀ k⟩]⟩
          (.call ([] : List (Member ι C R)).length c₀ (answer s c₀).1)
          ⟨(answer s c₀).2, [] ++ [⟨i, ⟨c₀, (answer s c₀).1⟩ :: log, k (answer s c₀).1⟩]⟩ :=
        .call (ha s c₀)
      exact ih _ (.step hr hst) hd

theorem reachable_trace (ha : ∀ s c, V.act i s c (answer s c).1 (answer s c).2)
    {p : Prog C R Unit} : ∀ {log : Log C R} {s : σ}, V.runs.Reachable ⟨s, [⟨i, log, p⟩]⟩ →
      V.runs.Reachable ⟨(trace answer p log s).2, []⟩ := by
  induction p with
  | pure a =>
    intro log s hr
    have hst : V.Step ⟨s, [] ++ [⟨i, log, .pure a⟩]⟩ (.stop ([] : List (Member ι C R)).length)
        ⟨s, [] ++ []⟩ := .stop
    exact .step hr hst
  | call c k ih =>
    intro log s hr
    have hst : V.Step ⟨s, [] ++ [⟨i, log, .call c k⟩]⟩
        (.call ([] : List (Member ι C R)).length c (answer s c).1)
        ⟨(answer s c).2, [] ++ [⟨i, ⟨c, (answer s c).1⟩ :: log, k (answer s c).1⟩]⟩ := .call (ha s c)
    exact ih _ (.step hr hst)

end Alone

end Crew

end Crawlrs
