import Crawlrs.L3Frontier.Wake

/-!
# Per-host mutual exclusion

A claim of a URL of `h` gates `h` at its lease expiry, which keeps the host to
one worker provided `h` has left `ready`. It has when `ready` lists each host
once. `promote.lua` appends without looking: a host that is still in `ready` and
was put back into `wake` by a submit or a reclaim is listed twice, and two
claims then hand out two of its URLs.

* `not_hostExclusive`: that run.
* `host_exclusive`: exclusion holds in every run whose promotes move no host that
  is already in `ready`.
-/
namespace Crawlrs

variable {β : Type}

/-- Once a claim at `t` with lease `leaseMs` returned a URL of `h`, no claim of `L`
returns one before a plan for `h` or a step with `now_ms ≥ t + leaseMs`. -/
def HostExclusive (L : LTS (Sys β) Op) : Prop :=
  ∀ s₀ s₁ s₂ s₃ s₄ tr tr' t leaseMs t' leaseMs' u u' h p p',
    L.init s₀ → L.Steps s₀ tr s₁ →
    L.step s₁ (.claim t leaseMs) s₂ → (s₁.shard.claim t leaseMs).2 = .claimed u h p →
    L.Steps s₂ tr' s₃ → L.step s₃ (.claim t' leaseMs') s₄ →
    Clocked (tr ++ .claim t leaseMs :: tr' ++ [.claim t' leaseMs']) →
    (∀ op ∈ tr', ∀ x, op ≠ .advanceWake h x) →
    (∀ op ∈ tr' ++ [.claim t' leaseMs'], ∀ now, op.now? = some now → now < t + leaseMs) →
    (s₃.shard.claim t' leaseMs').2 ≠ .claimed u' h p'

/-- A host promoted while it is still ready is claimed twice at once. -/
theorem not_hostExclusive : ¬ HostExclusive (system Env.sample) := by
  intro hx
  refine hx (.init []) _ _ _ _
    [.submit .a 0, .promote 0 10, .submit .a' 1, .promote 1 10] [] 2 10 2 10 Wire.idA Wire.idA'
    "a.test" (some Wire.bytesA) (some Wire.bytesA') ⟨[], rfl⟩ (LTS.steps_replay (by decide +kernel)) rfl
    (by decide) (.nil _) rfl (by decide) (by simp) ?_ (by decide)
  intro op hop now hnow
  simp only [List.nil_append, List.mem_singleton] at hop
  subst hop
  cases hnow
  decide

/-! ## Runs that promote no ready host -/

/-- The promote moves no host that is already in `ready`; a claim's times are exact
as doubles. -/
def SoloPromote (s : Sys β) : Op → Prop
  | .promote now limit => ∀ h ∈ s.shard.wake.zrangebyscore 0 (f64 now) limit, h ∉ s.shard.ready
  | .claim now leaseMs => 0 ≤ now ∧ 0 ≤ leaseMs ∧ now + leaseMs ≤ 2 ^ 53
  | _ => True

instance (s : Sys β) : (op : Op) → Decidable (SoloPromote s op)
  | .promote now limit => inferInstanceAs
    (Decidable (∀ h ∈ s.shard.wake.zrangebyscore 0 (f64 now) limit, h ∉ s.shard.ready))
  | .claim now leaseMs =>
    inferInstanceAs (Decidable (0 ≤ now ∧ 0 ≤ leaseMs ∧ now + leaseMs ≤ 2 ^ 53))
  | .submit .. | .submitBatch .. | .reclaim .. | .advanceWake .. | .ackZrem _ | .ackHdel _ =>
    inferInstanceAs (Decidable True)

theorem expiryOf_exact {now leaseMs : Int} (h0 : 0 ≤ now) (h1 : 0 ≤ leaseMs)
    (h2 : now + leaseMs ≤ 2 ^ 53) : Shard.expiryOf now leaseMs = now + leaseMs := by
  unfold Shard.expiryOf
  rw [f64_exact (z := now) (by omega), f64_exact (z := leaseMs) (by omega), f64_exact (by omega)]

theorem nodup_ready_eff {B : Sketch UrlId β} {s s' : Shard β} {e : Eff} (hn : s.ready.Nodup)
    (hst : Eff.Step B s e s') (hp : ∀ h now, e ≠ .promote h now) : s'.ready.Nodup := by
  cases hst with
  | accept => exact hn
  | stale hr _ => exact (List.nodup_cons.1 (hr ▸ hn)).2
  | lease hr _ => exact (List.nodup_cons.1 (hr ▸ hn)).2
  | promote => exact absurd rfl (hp _ _)
  | reclaim => exact hn
  | advance => exact hn.filter _
  | zrem => exact hn
  | hdel => exact hn

theorem nodup_ready_step {E : Env β} {s s' : Sys β} {op : Op} (hn : s.shard.ready.Nodup)
    (hok : SoloPromote s op) (hst : s.step E op = some s') : s'.shard.ready.Nodup := by
  by_cases hop : ∃ now limit, op = .promote now limit
  · obtain ⟨now, limit, rfl⟩ := hop
    simp only [Sys.step, Option.some.injEq] at hst
    subst hst
    simp only [Shard.promote, (Shard.promote_fold_ready _ s.shard).1]
    refine List.nodup_append.2 ⟨hn, ZSet.nodup_zrangebyscore _ _ _ _, ?_⟩
    rintro a ha b hb rfl
    exact hok a hb ha
  · obtain ⟨es, hsteps, hall, -⟩ := Sys.step_effs hst
    refine hsteps.preserves (P := fun s => s.ready.Nodup) (Q := op.Effect E s) ?_ hall hn
    intro a e b ha he hab
    refine nodup_ready_eff ha hab ?_
    rintro h now rfl
    cases op with
    | promote now' limit => exact hop ⟨now', limit, rfl⟩
    | _ => simp [Op.Effect] at he

theorem nodup_ready_inductive (E : Env β) :
    ((system E).restrict SoloPromote).Inductive fun s => s.shard.ready.Nodup where
  init := by
    rintro s ⟨seen, rfl⟩
    exact List.nodup_nil
  step s op s' hn hst := nodup_ready_step hn hst.1 hst.2

/-- With `ready` free of repetitions, a claim gates the host it takes. -/
theorem gated_claim {s : Shard β} {now leaseMs : Int} {u : UrlId} {h : Host} {p : Option Bytes}
    (hn : s.ready.Nodup) (hcl : (s.claim now leaseMs).2 = .claimed u h p) :
    Gated h (Shard.expiryOf now leaseMs) (s.claim now leaseMs).1 := by
  obtain ⟨pre, rest, q, hr, -, -, htake⟩ := Shard.claim_claimed hcl
  rw [hr] at hn
  have hrest : h ∉ rest := (List.nodup_cons.1 (List.nodup_append.1 hn).2.1).1
  rw [htake]
  exact ⟨hrest, by simp [Shard.take, ZSet.score?_zadd]⟩

/-- **Mutual exclusion, when no ready host is promoted again.** -/
theorem host_exclusive (E : Env β) : HostExclusive ((system E).restrict SoloPromote) := by
  intro s₀ s₁ s₂ s₃ s₄ tr tr' t leaseMs t' leaseMs' u u' h p p' hinit hrun hst hcl hrun' _ _ hadv hnow
  have hn := (nodup_ready_inductive E).reachable s₁ (.steps (.init hinit) hrun)
  obtain ⟨⟨h0, h1, h2⟩, hst⟩ := hst
  simp only [system, LTS.ofFn, Sys.step, Option.some.injEq] at hst
  have hg : Gated h (t + leaseMs) s₂.shard := by
    subst hst
    rw [← expiryOf_exact h0 h1 h2]
    exact gated_claim hn hcl
  refine (Gated.steps hrun'.of_restrict hadv ?_ hg).not_claimed t' leaseMs' u' p'
  intro now limit hm _
  have hlt := hnow _ (List.mem_append_left _ hm) now rfl
  have hexact : f64 (t + leaseMs) = t + leaseMs := f64_exact (by omega)
  rw [← hexact]
  exact f64_lt_of_lt (by omega) h2 hlt

/-- While `a.test` is leased, another of its URLs waits although a promote runs. -/
theorem host_exclusive_waiting :
    ((Sys.after .sample [] [.submit .a 0, .promote 0 10, .claim 2 10, .submit .a' 3,
      .promote 4 10]).shard.claim 4 10).2 ≠ .claimed Wire.idA' "a.test" (some Wire.bytesA') :=
  host_exclusive .sample (.init []) _ _ _ _ [.submit .a 0, .promote 0 10] [.submit .a' 3, .promote 4 10]
    2 10 4 10 Wire.idA Wire.idA' "a.test" (some Wire.bytesA) _ ⟨[], rfl⟩
    (LTS.Steps.of_guarded (LTS.steps_replay (by decide +kernel))) ⟨by decide, rfl⟩ (by decide)
    (LTS.Steps.of_guarded (LTS.steps_replay (by decide +kernel))) ⟨by decide, rfl⟩ (by decide) (by simp)
    (by
      intro op hop now hnow
      simp only [List.cons_append, List.nil_append, List.mem_cons, List.not_mem_nil, or_false] at hop
      rcases hop with rfl | rfl | rfl <;> cases hnow <;> decide)

end Crawlrs
