import Crawlrs.L3Frontier.Wake

/-!
# No host is stranded

A host with queued URLs is always known to the scheduler. `claim.lua` drops a
`ready` entry only when the queue is empty or while it sets the wake-time,
`advance_wake.lua` removes entries after setting it, `promote.lua` moves the
host over, and every push to a queue is followed by a `ZADD NX`.

Known is not reached. `promote.lua` asks for the scores from 0 to now, and
`advance_wake` casts its `u64` to an `i64`: a plan of 2^63 ms or more is a score
below zero, which no promote selects.

* `scheduled_reachable`: the invariant.
* `claimable_iff`: promotes and claims get to a URL of such a host exactly if it
  is ready or its score is not below zero.
* `not_noHostStranded`: a plan of 2^64 - 1 ms.
* `no_host_stranded`: no host is stranded in a run without times below zero.
-/
namespace Crawlrs

variable {β : Type}

/-- Every host with a queued URL is in `wake` or in `ready`. -/
def Scheduled (s : Shard β) : Prop :=
  ∀ h, s.hostQueue h ≠ [] → (s.wake.score? h).isSome ∨ h ∈ s.ready

namespace Scheduled

variable {B : Sketch UrlId β} {s s' : Shard β}

/-- A push to the queue of `h` followed by `ZADD wake NX`. -/
theorem push (hs : Scheduled s) (h : Host) (q : List UrlId) (t : Int)
    (hq : s'.hostQueue = Function.update s.hostQueue h q) (hw : s'.wake = s.wake.zaddNX h t)
    (hr : s'.ready = s.ready) : Scheduled s' := by
  intro x hx
  by_cases hxh : x = h
  · subst hxh
    exact .inl (hw ▸ ZSet.isSome_zaddNX _ _ _)
  · rw [hq, Function.update_of_ne hxh] at hx
    rw [hw, hr]
    exact (hs x hx).imp (ZSet.isSome_zaddNX_of h t) id

/-- The wake-time of `h` is set and other hosts stay in `ready`. -/
theorem setWake (hs : Scheduled s) (h : Host) (t : Int)
    (hq : ∀ x, x ≠ h → s'.hostQueue x = s.hostQueue x) (hw : s'.wake = s.wake.zadd h t)
    (hr : ∀ x, x ≠ h → x ∈ s.ready → x ∈ s'.ready) : Scheduled s' := by
  intro x hx
  rw [hw, ZSet.score?_zadd]
  by_cases hxh : x = h
  · simp [hxh]
  · rw [if_neg hxh]
    rw [hq x hxh] at hx
    exact (hs x hx).imp id (hr x hxh)

theorem eff (hs : Scheduled s) {e : Eff} (hst : Eff.Step B s e s') : Scheduled s' := by
  cases hst with
  | accept => exact hs.push _ _ _ rfl rfl rfl
  | @stale h rest hr hq =>
    intro x hx
    have hne : x ≠ h := fun e => hx (e ▸ hq)
    exact (hs x hx).imp id fun hm => (List.mem_cons.1 (hr ▸ hm)).resolve_left hne
  | @lease u h rest q expiry hr hq =>
    refine hs.setWake h expiry (fun x hx => Function.update_of_ne hx _ _) rfl fun x hx hm => ?_
    exact (List.mem_cons.1 (hr ▸ hm)).resolve_left hx
  | @promote h now t hw h0 h1 =>
    intro x hx
    by_cases hxh : x = h
    · exact .inr (by simp [Shard.promoteOne, hxh])
    · refine (hs x hx).imp (fun hm => ?_) fun hm => List.mem_append_left _ hm
      simpa [Shard.promoteOne, ZSet.score?_zrem, hxh] using hm
  | reclaim => exact hs.push _ _ _ rfl rfl rfl
  | @advance h t =>
    refine hs.setWake h (f64 t) (fun _ _ => rfl) rfl fun x hx hm => ?_
    exact List.mem_filter.2 ⟨hm, by simpa using hx⟩
  | zrem => exact hs
  | hdel => exact hs

end Scheduled

theorem scheduled_inductive (E : Env β) : (system E).Inductive fun s => Scheduled s.shard where
  init := by
    rintro s ⟨seen, rfl⟩ h hq
    exact absurd rfl hq
  step := by
    intro s op s' hs hst
    obtain ⟨es, hsteps, -, -⟩ := Sys.step_effs hst
    exact hsteps.stable (P := Scheduled) (fun _ _ _ h h' => h.eff h') hs

theorem scheduled_reachable {E : Env β} {s : Sys β} (hs : (system E).Reachable s) :
    Scheduled s.shard := (scheduled_inductive E).reachable s hs

/-! ## The scheduler reaches the host -/

/-- Some sequence of promotes and claims ends with a claim of a URL of `h`. -/
def Claimable (E : Env β) (s : Sys β) (h : Host) : Prop :=
  ∃ tr s', (system E).Steps s tr s' ∧
    (∀ op ∈ tr, (∃ now limit, op = .promote now limit) ∨ ∃ now leaseMs, op = .claim now leaseMs) ∧
    ∃ now leaseMs u p, (s'.shard.claim now leaseMs).2 = .claimed u h p

theorem Claimable.step {E : Env β} {s s' : Sys β} {h : Host} {op : Op} (hst : s.step E op = some s')
    (hop : (∃ now limit, op = .promote now limit) ∨ ∃ now leaseMs, op = .claim now leaseMs)
    (hc : Claimable E s' h) : Claimable E s h := by
  obtain ⟨tr, s'', hsteps, hall, hclaim⟩ := hc
  refine ⟨op :: tr, s'', .cons hst hsteps, fun o ho => ?_, hclaim⟩
  rcases List.mem_cons.1 ho with rfl | ho
  · exact hop
  · exact hall o ho

/-- Induction on the length of `ready`: a claim returns a URL of `h`, or one of a
host before it and shortens the list. -/
theorem ready_claimable (E : Env β) (h : Host) (n : Nat) :
    ∀ s : Sys β, s.shard.ready.length ≤ n → h ∈ s.shard.ready → s.shard.hostQueue h ≠ [] →
      Claimable E s h := by
  induction n with
  | zero =>
    intro s hn hm _
    have : s.shard.ready = [] := List.length_eq_zero_iff.1 (Nat.le_zero.1 hn)
    simp [this] at hm
  | succ n ih =>
    intro s hn hm hq
    have hc := Shard.claim_cases s.shard 0 0
    generalize hres : s.shard.claim 0 0 = res at hc
    cases hc with
    | @claimed pre rest x u q hr hpre hx =>
      by_cases hxh : x = h
      · subst hxh
        exact ⟨[], s, .nil s, by simp, 0, 0, u, _, congrArg Prod.snd hres⟩
      · have hmem : h ∈ rest := by
          rw [hr, List.mem_append, List.mem_cons] at hm
          rcases hm with hm | rfl | hm
          · exact absurd (hpre h hm) hq
          · exact absurd rfl hxh
          · exact hm
        have hlen : rest.length ≤ n := by
          have := congrArg List.length hr
          simp at this
          omega
        have hst : s.step E (.claim 0 0) = some { s with
            shard := s.shard.take u x rest q (Shard.expiryOf 0 0)
            deliveries := s.deliveries ++ E.delivered (.claimed u x (s.shard.urls u)) } := by
          simp only [Sys.step, hres]
        refine .step hst (.inr ⟨0, 0, rfl⟩) (ih _ hlen hmem ?_)
        simpa [Shard.take, Function.update_of_ne (Ne.symm hxh)] using hq
    | hint hall _ => exact absurd (hall h hm) hq
    | empty hall _ => exact absurd (hall h hm) hq

/-- A promote late enough, with room for every host, makes `h` ready. -/
theorem wake_claimable (E : Env β) (s : Sys β) (h : Host) {t : Int}
    (hw : s.shard.wake.score? h = some t) (h0 : 0 ≤ t) (hq : s.shard.hostQueue h ≠ []) :
    Claimable E s h := by
  obtain ⟨now, -, hnow⟩ := exists_le_f64 t
  have hin := ZSet.mem_zrangebyscore (Nat.le_refl s.shard.wake.zcard) hw h0 hnow
  obtain ⟨hr, hqueue⟩ := Shard.promote_fold_ready
    (s.shard.wake.zrangebyscore 0 (f64 now) s.shard.wake.zcard) s.shard
  have hst : s.step E (.promote now s.shard.wake.zcard) =
      some { s with shard := (s.shard.promote now s.shard.wake.zcard).1 } := rfl
  refine .step hst (.inl ⟨_, _, rfl⟩) ?_
  refine ready_claimable E h _ _ (Nat.le_refl _) ?_ ?_
  · simp only [Shard.promote, hr]
    exact List.mem_append_right _ hin
  · simpa only [Shard.promote, hqueue] using hq

/-- Below zero, neither a promote nor a claim moves the host. -/
theorem not_claimable {E : Env β} {s : Sys β} {h : Host} {t : Int} (hg : Gated h t s.shard)
    (ht : t < 0) : ¬ Claimable E s h := by
  rintro ⟨tr, s', hsteps, hall, now, leaseMs, u, p, hcl⟩
  refine (Gated.steps hsteps ?_ (fun _ _ _ h0 => by omega) hg).not_claimed now leaseMs u p hcl
  rintro op hop x rfl
  obtain ⟨_, _, he⟩ | ⟨_, _, he⟩ := hall _ hop
  · cases he
  · cases he

theorem claimable_iff {E : Env β} {s : Sys β} (hs : Scheduled s.shard) {h : Host}
    (hq : s.shard.hostQueue h ≠ []) :
    Claimable E s h ↔ (∃ t, s.shard.wake.score? h = some t ∧ 0 ≤ t) ∨ h ∈ s.shard.ready := by
  constructor
  · intro hc
    by_contra hnot
    obtain ⟨hwake, hready⟩ := not_or.1 hnot
    obtain ⟨t, ht⟩ := Option.isSome_iff_exists.1 ((hs h hq).resolve_right hready)
    have hneg : t < 0 := by
      by_contra h0
      exact hwake ⟨t, ht, Int.not_lt.1 h0⟩
    exact not_claimable ⟨hready, ht⟩ hneg hc
  · rintro (⟨t, ht, h0⟩ | hm)
    · exact wake_claimable E s h ht h0 hq
    · exact ready_claimable E h _ s (Nat.le_refl _) hm hq

/-! ## Times below zero -/

/-- A host with queued URLs is in `wake` or `ready`, and promotes and claims can still reach it. -/
def NoHostStranded (E : Env β) (L : LTS (Sys β) Op) : Prop :=
  ∀ s h, L.Reachable s → s.shard.hostQueue h ≠ [] →
    ((s.shard.wake.score? h).isSome ∨ h ∈ s.shard.ready) ∧ Claimable E s h

/-- `advance_wake` of `u64::MAX` writes the score -1. -/
theorem not_noHostStranded : ¬ NoHostStranded .sample (system Env.sample) := by
  intro hall
  have hc := (hall (.after .sample [] [.submit .a 0, .advanceWake "a.test" (asI64 0xFFFFFFFFFFFFFFFF)])
    "a.test" (reachable_after (by decide +kernel)) (by decide +kernel)).2
  refine not_claimable (t := -1) ⟨by decide +kernel, by decide +kernel⟩ (by decide) hc

/-- Clock, lease timeout and plan are not below zero: a plan is below 2^63 ms. -/
def Op.Forward : Op → Prop
  | .submit _ now | .submitBatch _ now | .reclaim now _ => 0 ≤ now
  | .claim now leaseMs => 0 ≤ now ∧ 0 ≤ leaseMs
  | .advanceWake _ untilMs => 0 ≤ untilMs
  | .promote .. | .ackZrem _ | .ackHdel _ => True

instance : (op : Op) → Decidable op.Forward
  | .submit _ now | .submitBatch _ now | .reclaim now _ => inferInstanceAs (Decidable (0 ≤ now))
  | .claim now leaseMs => inferInstanceAs (Decidable (0 ≤ now ∧ 0 ≤ leaseMs))
  | .advanceWake _ untilMs => inferInstanceAs (Decidable (0 ≤ untilMs))
  | .promote .. | .ackZrem _ | .ackHdel _ => inferInstanceAs (Decidable True)

/-- The times an effect writes. -/
def Eff.Forward : Eff → Prop
  | .accept _ _ _ now _ => 0 ≤ now
  | .lease _ _ expiry => 0 ≤ expiry
  | .reclaim _ now => 0 ≤ now
  | .advance _ untilMs => 0 ≤ untilMs
  | _ => True

theorem Op.Forward.effect {E : Env β} {s : Sys β} {op : Op} (hop : op.Forward) {e : Eff}
    (he : op.Effect E s e) : e.Forward := by
  cases op with
  | submit => cases he; exact hop
  | submitBatch =>
    obtain ⟨p, -, rfl⟩ := he
    exact hop
  | claim now leaseMs =>
    obtain ⟨x, rfl⟩ | ⟨u, x, p, -, rfl⟩ := he
    · trivial
    · have hsum := Int.add_nonneg (f64_nonneg hop.1) (f64_nonneg hop.2)
      exact f64_nonneg hsum
  | promote =>
    obtain ⟨x, -, rfl⟩ := he
    trivial
  | reclaim =>
    obtain ⟨l, -, rfl⟩ := he
    exact hop
  | advanceWake => cases he; exact hop
  | ackZrem =>
    obtain ⟨l, -, rfl⟩ := he
    trivial
  | ackHdel =>
    obtain ⟨l, -, -, rfl⟩ := he
    trivial

/-- One effect. -/
theorem Eff.Step.scores_nonneg {B : Sketch UrlId β} {s s' : Shard β} {e : Eff}
    (hst : Eff.Step B s e s') (he : e.Forward) (hw : s.wake.Scores (0 ≤ ·)) :
    s'.wake.Scores (0 ≤ ·) := by
  cases hst with
  | accept => exact hw.zaddNX _ (f64_nonneg he)
  | stale => exact hw
  | lease => exact hw.zadd _ he
  | promote => exact hw.zrem _
  | reclaim => exact hw.zaddNX _ (f64_nonneg he)
  | advance => exact hw.zadd _ (f64_nonneg he)
  | zrem => exact hw
  | hdel => exact hw

theorem scores_nonneg_inductive (E : Env β) :
    ((system E).restrict fun _ op => op.Forward).Inductive fun s => s.shard.wake.Scores (0 ≤ ·) where
  init := by
    rintro s ⟨seen, rfl⟩ h t ht
    cases ht
  step := by
    rintro s op s' hw ⟨hop, hst⟩
    obtain ⟨es, hsteps, hall, -⟩ := Sys.step_effs hst
    refine hsteps.preserves (P := fun s => s.wake.Scores (0 ≤ ·)) (Q := op.Effect E s) ?_ hall hw
    intro a e b hn he hab
    exact Eff.Step.scores_nonneg hab (hop.effect he) hn

/-- **No host is stranded.** In every reachable state a host with queued URLs is in `wake` or in
`ready`, and promotes and claims alone get to one of its URLs exactly if it is in `ready` or its
score is not below zero; in a run without times below zero (every plan below 2^63 ms) they always
do. -/
theorem no_host_stranded (E : Env β) (s : Sys β) (hs : (system E).Reachable s) (h : Host)
    (hq : s.shard.hostQueue h ≠ []) :
    ((s.shard.wake.score? h).isSome ∨ h ∈ s.shard.ready) ∧
      (Claimable E s h ↔ (∃ t, s.shard.wake.score? h = some t ∧ 0 ≤ t) ∨ h ∈ s.shard.ready) ∧
      (((system E).restrict fun _ op => op.Forward).Reachable s → Claimable E s h) := by
  have hsched := scheduled_reachable hs
  refine ⟨hsched h hq, claimable_iff hsched hq, fun hf => (claimable_iff hsched hq).2 ?_⟩
  refine (hsched h hq).imp (fun hsome => ?_) id
  obtain ⟨t, ht⟩ := Option.isSome_iff_exists.1 hsome
  exact ⟨t, ht, (scores_nonneg_inductive E).reachable s hf h t ht⟩

/-- After a stale `ready` entry was dropped, a reclaim puts the host back. -/
theorem no_host_stranded_reclaimed :
    Claimable .sample (Sys.after .sample [] [.submit .a 0, .promote 0 10, .claim 0 5,
      .advanceWake "a.test" 1, .promote 1 10, .claim 2 5, .reclaim 5 10]) "a.test" :=
  (no_host_stranded .sample _ (reachable_after (by decide +kernel)) "a.test" (by decide)).2.2
    (reachable_after_restrict (by decide +kernel))

end Crawlrs
