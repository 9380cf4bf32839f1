import Crawlrs.L3Frontier.System

/-!
# Wake-times: backoff plans and the gate they set

A host with a wake-time that is not in `ready` is gated: only `advance_wake` of
that host changes the score, and only a promote that has reached the score lifts
the gate (`Gated.step`), none if the score is below zero. `claim.lua` sets such a
gate too.

* `backoff_gate`: after `advance_wake(h, T)` nothing of `h` is claimed until a
  promote whose `now_ms` has reached `T`, both read as doubles.
* `not_backoffGateExact`: read as integers this fails above 2^53, where the
  score of a plan can be smaller than the plan.
* `later_plan_wins_iff`: of two plans the last one written wins, so the later
  one wins in both orders exactly when they are the same plan to the server.
-/
namespace Crawlrs

variable {β : Type}

/-! ## The gate -/

/-- `h` waits for `x`: not ready, and scheduled at score `x`. -/
def Gated (h : Host) (x : Int) (s : Shard β) : Prop := h ∉ s.ready ∧ s.wake.score? h = some x

namespace Gated

variable {B : Sketch UrlId β} {s s' : Shard β} {h : Host} {x : Int}

/-- `ZADD NX` does not move a scheduled host. -/
theorem wakeNX (hg : Gated h x s) (m : Host) (t : Int) (hw : s'.wake = s.wake.zaddNX m t)
    (hr : s'.ready = s.ready) : Gated h x s' := by
  refine ⟨hr ▸ hg.1, ?_⟩
  rw [hw, ZSet.score?_zaddNX, if_neg ?_, hg.2]
  rintro ⟨rfl, hn⟩
  rw [hg.2] at hn
  cases hn

theorem eff (hg : Gated h x s) {e : Eff} (hst : Eff.Step B s e s')
    (hadv : ∀ t, e ≠ .advance h t) (hpro : ∀ now, e = .promote h now → 0 ≤ x → f64 now < x) :
    Gated h x s' := by
  cases hst with
  | accept => exact hg.wakeNX _ _ rfl rfl
  | @stale m rest hr hq =>
    exact ⟨fun hm => hg.1 (hr ▸ List.mem_cons_of_mem _ hm), hg.2⟩
  | @lease u m rest q expiry hr hq =>
    have hne : h ≠ m := fun e => hg.1 (hr ▸ e ▸ List.mem_cons_self)
    refine ⟨fun hm => hg.1 (hr ▸ List.mem_cons_of_mem _ hm), ?_⟩
    simpa [Shard.take, ZSet.score?_zadd, hne] using hg.2
  | @promote m now t hw h0 h1 =>
    have hne : h ≠ m := by
      rintro rfl
      rw [hg.2] at hw
      cases hw
      exact absurd h1 (not_le.2 (hpro now rfl h0))
    exact ⟨by simpa [Shard.promoteOne, hne] using hg.1,
      by simpa [Shard.promoteOne, ZSet.score?_zrem, hne] using hg.2⟩
  | reclaim => exact hg.wakeNX _ _ rfl rfl
  | @advance m t =>
    have hne : h ≠ m := fun e => hadv t (e ▸ rfl)
    refine ⟨fun hm => hg.1 (List.mem_filter.1 hm).1, ?_⟩
    simpa [Shard.advanceWake, ZSet.score?_zadd, hne] using hg.2
  | zrem => exact hg
  | hdel => exact hg

/-- One op. -/
theorem step {E : Env β} {s s' : Sys β} (hg : Gated h x s.shard) {op : Op}
    (hst : s.step E op = some s') (hadv : ∀ t, op ≠ .advanceWake h t)
    (hpro : ∀ now limit, op = .promote now limit → 0 ≤ x → f64 now < x) : Gated h x s'.shard := by
  obtain ⟨es, hsteps, hall, -⟩ := Sys.step_effs hst
  refine hsteps.preserves (P := Gated h x) (Q := op.Effect E s) ?_ hall hg
  intro a e b ha he hab
  refine ha.eff hab ?_ ?_
  · rintro t rfl
    cases op with
    | advanceWake m t' => cases he; exact hadv t rfl
    | _ => simp [Op.Effect] at he
  · rintro now rfl
    cases op with
    | promote now' limit =>
      obtain ⟨m, -, hm⟩ := he
      cases hm
      exact hpro now limit rfl
    | _ => simp [Op.Effect] at he

/-- A whole run. -/
theorem steps {E : Env β} {s s' : Sys β} {tr : List Op} (hsteps : (system E).Steps s tr s')
    (hadv : ∀ op ∈ tr, ∀ t, op ≠ .advanceWake h t)
    (hpro : ∀ now limit, .promote now limit ∈ tr → 0 ≤ x → f64 now < x) (hg : Gated h x s.shard) :
    Gated h x s'.shard := by
  refine hsteps.preserves (P := fun s => Gated h x s.shard)
    (Q := fun op => (∀ t, op ≠ .advanceWake h t) ∧
      ∀ now limit, op = .promote now limit → 0 ≤ x → f64 now < x) ?_ ?_ hg
  · intro a op b ha hok hab
    exact ha.step hab hok.1 hok.2
  · intro op hop
    exact ⟨hadv op hop, fun now limit he => hpro now limit (he ▸ hop)⟩

/-- A gated host is not claimed. -/
theorem not_claimed (hg : Gated h x s) (now leaseMs : Int) (u : UrlId) (p : Option Bytes) :
    (s.claim now leaseMs).2 ≠ .claimed u h p := by
  intro hcl
  obtain ⟨pre, rest, _, hr, -, -, -⟩ := Shard.claim_claimed hcl
  exact hg.1 (hr ▸ List.mem_append_right pre List.mem_cons_self)

end Gated

theorem gated_advanceWake (s : Shard β) (h : Host) (untilMs : Int) :
    Gated h (f64 untilMs) (s.advanceWake h untilMs) := by
  refine ⟨fun hm => ?_, by simp [Shard.advanceWake, ZSet.score?_zadd]⟩
  have := (List.mem_filter.1 hm).2
  simp at this

/-! ## One plan -/

/-- Nothing of `h` is claimed in a continuation without a further plan for `h`
whose promotes all satisfy `early`. -/
def HeldBack (E : Env β) (s : Sys β) (h : Host) (early : Int → Prop) : Prop :=
  ∀ tr s', (system E).Steps s tr s' → (∀ op ∈ tr, ∀ t, op ≠ .advanceWake h t) →
    (∀ now limit, .promote now limit ∈ tr → early now) →
    ∀ now leaseMs u p, (s'.shard.claim now leaseMs).2 ≠ .claimed u h p

theorem Gated.heldBack {E : Env β} {s : Sys β} {h : Host} {x : Int} (hg : Gated h x s.shard) :
    HeldBack E s h fun now => f64 now < x := by
  intro tr s' hsteps hadv hpro now leaseMs u p
  exact (Gated.steps hsteps hadv (fun now limit hm _ => hpro now limit hm) hg).not_claimed now leaseMs u p

/-- Up to 2^53, a clock before the plan is a double before the plan. -/
theorem f64_lt_of_lt {now t : Int} (h0 : 0 ≤ t) (ht : t ≤ 2 ^ 53) (h : now < t) :
    f64 now < f64 t := by
  have h1 : f64 now ≤ f64 (t - 1) := f64_mono (by omega)
  have h2 : f64 (t - 1) = t - 1 := f64_exact (by omega)
  have h3 : f64 t = t := f64_exact (by omega)
  omega

/-- **Backoff gate.** After `advance_wake(h, T)`, in every continuation without a
further plan for `h`, no claim returns a URL of `h` until a promote has executed
whose `now_ms` is at least `T` as doubles; for `T ≤ 2^53`, at least `T`. -/
theorem backoff_gate (E : Env β) (s s' : Sys β) (h : Host) (T : Int) (h0 : 0 ≤ T)
    (hst : s.step E (.advanceWake h T) = some s') :
    HeldBack E s' h (fun now => f64 now < f64 T) ∧
      (T ≤ 2 ^ 53 → HeldBack E s' h fun now => now < T) := by
  simp only [Sys.step, Option.some.injEq] at hst
  subst hst
  have hg := (gated_advanceWake s.shard h T).heldBack (E := E)
    (s := { s with shard := s.shard.advanceWake h T })
  refine ⟨hg, fun hT tr s' hsteps hadv hpro => ?_⟩
  exact hg tr s' hsteps hadv fun now limit hm => f64_lt_of_lt h0 hT (hpro now limit hm)

theorem backoff_gate_minute :
    HeldBack .sample (Sys.after .sample [] [.submit .a 0, .advanceWake "a.test" 60000]) "a.test"
      (· < 60000) :=
  (backoff_gate .sample (Sys.after .sample [] [.submit .a 0]) _ "a.test" 60000 (by decide) rfl).2
    (by decide)

/-- The gate with `now_ms` and `T` compared as integers. -/
def BackoffGateExact (E : Env β) : Prop :=
  ∀ s s' h T, (system E).Reachable s → 0 ≤ T → T < 2 ^ 63 → s.step E (.advanceWake h T) = some s' →
    HeldBack E s' h fun now => now < T

/-- The plan 2^53 + 1 is stored as 2^53 and a promote at 2^53 lifts it. -/
theorem not_backoffGateExact : ¬ BackoffGateExact Env.sample := by
  intro hall
  refine hall (.after .sample [] [.submit .a 0]) _ "a.test" (2 ^ 53 + 1) (reachable_after (by decide +kernel))
    (by decide) (by decide) rfl [.promote (2 ^ 53) 10] _ (LTS.steps_replay (by decide +kernel)) (by simp)
    (by simp) (2 ^ 53) 1000 Wire.idA (some Wire.bytesA) (by decide)

/-! ## Two plans -/

/-- `until_ms as i64`.
mirrors crates/crawlrs-frontier/src/frontier.rs:515 -/
def asI64 (t : UInt64) : Int := if t.toNat < 2 ^ 63 then t.toNat else t.toNat - 2 ^ 64

/-- Steps that are no claim of a URL of `h`. -/
def NoClaimOf (h : Host) (s : Sys β) : Op → Prop
  | .claim now leaseMs => ∀ u p, (s.shard.claim now leaseMs).2 ≠ .claimed u h p
  | _ => True

/-- The later of two plans for `h` wins, whichever is applied first and whatever
but a claim of `h` happens in between; applied back to back, both orders give one
state. -/
structure LaterPlanWins (E : Env β) (s : Sys β) (h : Host) (T₁ T₂ : UInt64) : Prop where
  score : ∀ x y, (x = T₁ ∧ y = T₂) ∨ (x = T₂ ∧ y = T₁) → ∀ s₁ s₂ s₃ tr,
    s.step E (.advanceWake h (asI64 x)) = some s₁ →
    ((system E).restrict (NoClaimOf h)).Steps s₁ tr s₂ →
    s₂.step E (.advanceWake h (asI64 y)) = some s₃ →
    s₃.shard.wake.score? h = some (f64 (max T₁.toNat T₂.toNat : Nat)) ∧
      HeldBack E s₃ h fun now => f64 now < f64 (max T₁.toNat T₂.toNat : Nat)
  comm : (s.shard.advanceWake h (asI64 T₁)).advanceWake h (asI64 T₂) =
    (s.shard.advanceWake h (asI64 T₂)).advanceWake h (asI64 T₁)

theorem asI64_of_lt {t : UInt64} (h : t.toNat < 2 ^ 63) : asI64 t = t.toNat := if_pos h

/-- Only a plan below 2^63 is written as a score that is not negative. -/
theorem lt_of_f64_asI64 {t : UInt64} {n : Nat} (h : f64 (asI64 t) = f64 n) : t.toNat < 2 ^ 63 := by
  by_contra hge
  have hlt := t.toNat_lt
  have hn : 0 ≤ f64 (n : Int) := f64_nonneg (by omega)
  have hneg : asI64 t ≤ -1 := by unfold asI64; rw [if_neg hge]; omega
  have : f64 (asI64 t) ≤ f64 (-1) := f64_mono hneg
  have hm1 : f64 (-1) = -1 := by decide
  omega

theorem f64_max_eq {a b : Nat} (h : f64 a = f64 b) : f64 (max a b : Nat) = f64 a := by
  rcases Nat.le_total a b with hab | hab
  · rw [Nat.max_eq_right hab, h]
  · rw [Nat.max_eq_left hab]

/-- **Concurrent plans.** The later of two plans wins in every order exactly when
both fit an `i64` and are the same double: the script writes the last one. -/
theorem later_plan_wins_iff (E : Env β) (s : Sys β) (h : Host) (T₁ T₂ : UInt64) :
    LaterPlanWins E s h T₁ T₂ ↔
      T₁.toNat < 2 ^ 63 ∧ T₂.toNat < 2 ^ 63 ∧ f64 T₁.toNat = f64 T₂.toNat := by
  constructor
  · intro hp
    -- back to back, the score is that of the plan applied last
    have hlast : ∀ x y, (x = T₁ ∧ y = T₂) ∨ (x = T₂ ∧ y = T₁) →
        f64 (asI64 y) = f64 (max T₁.toNat T₂.toNat : Nat) := by
      intro x y hxy
      have := (hp.score x y hxy _ _ _ [] rfl (.nil _) rfl).1
      simpa [Shard.advanceWake, ZSet.score?_zadd] using this
    have h2 := hlast T₁ T₂ (.inl ⟨rfl, rfl⟩)
    have h1 := hlast T₂ T₁ (.inr ⟨rfl, rfl⟩)
    have hl1 := lt_of_f64_asI64 h1
    have hl2 := lt_of_f64_asI64 h2
    rw [asI64_of_lt hl1] at h1
    rw [asI64_of_lt hl2] at h2
    exact ⟨hl1, hl2, h1.trans h2.symm⟩
  · rintro ⟨hl1, hl2, heq⟩
    have h1 : f64 (asI64 T₁) = f64 (max T₁.toNat T₂.toNat : Nat) := by
      rw [asI64_of_lt hl1, f64_max_eq heq]
    have h2 : f64 (asI64 T₂) = f64 (max T₁.toNat T₂.toNat : Nat) := by
      rw [asI64_of_lt hl2, f64_max_eq heq, heq]
    refine ⟨?_, ?_⟩
    · intro x y hxy s₁ s₂ s₃ tr _ _ hst
      have hy : f64 (asI64 y) = f64 (max T₁.toNat T₂.toNat : Nat) := by
        rcases hxy with ⟨-, rfl⟩ | ⟨-, rfl⟩
        · exact h2
        · exact h1
      simp only [Sys.step, Option.some.injEq] at hst
      subst hst
      have hg := gated_advanceWake s₂.shard h (asI64 y)
      rw [hy] at hg
      exact ⟨hg.2, hg.heldBack⟩
    · simp only [Shard.advanceWake, h1, h2]

/-- A minute of `Retry-After`, then a second of host delay: the second stands. -/
theorem not_laterPlanWins :
    ¬ ∀ s h T₁ T₂, (system Env.sample).Reachable s → LaterPlanWins Env.sample s h T₁ T₂ := by
  intro hall
  have := ((hall (.init []) "a.test" 60000 1000 (.init ⟨[], rfl⟩)).score 60000 1000
    (.inl ⟨rfl, rfl⟩) _ _ _ [] rfl (.nil _) rfl).1
  exact absurd this (by decide)

end Crawlrs
