import Crawlrs.L3Frontier.Ownership
import Crawlrs.L4Runtime.Frontier
import Crawlrs.L5Fakes.Retries

/-!
# The retry budget (`UrlPipeline::handle_failure`)

A delivery whose fetch failed acks when the budget is spent, and otherwise leaves
its lease, so that a reclaim puts the URL back once the lease has expired.
`history_ended` carries what one delivery leaves over a history of them;
`retry_budget` reads the budget off it, for both ledgers.
-/
namespace Crawlrs

open Prog (Log Runs)

/-! ## The lease -/

/-- A frontier that serves the deliveries, with what its batches read from their surroundings. -/
structure Backend (β : Type) where
  frontier : RedisFrontier
  wire : Wire
  bloom : Sketch UrlId β
  order : HashOrder
  nowMs : Int

namespace Backend

variable {β : Type} (X : Backend β)

def apply (R : Redis β) : Call → Redis β
  | .ack a => (X.frontier.ack a R).2
  | .advanceWake host untilMs => (X.frontier.advanceWake host untilMs R).2
  | .submitBatch es => (X.frontier.submitBatch X.wire X.bloom X.order X.nowMs es R).2
  | _ => R

/-- What the frontier calls of a delivery make of Redis. -/
def after (log : Log Call Call.Answer) (R : Redis β) : Redis β :=
  log.foldr (fun e R => X.apply R e.1) R

end Backend

section Leases

variable {β : Type} {X : Backend β}

theorem Shard.submitBatch_inflight (B : Sketch UrlId β) (now : Int) (its : List SubmitItem)
    (s : Shard β) (acc : Nat × List UrlId) : (submitBatch B now its s acc).1.inflight = s.inflight := by
  rw [submitBatch_fst]
  induction its generalizing s with
  | nil => rfl
  | cons it its ih =>
    have hit : (submitItem B now s it).1.inflight = s.inflight := by
      rw [submitItem_eq]
      split
      · rfl
      · split <;> rfl
    rw [List.foldl_cons, ih, hit]

theorem RedisFrontier.submitShards_inflight (F : RedisFrontier) (W : Wire) (B : Sketch UrlId β)
    (now : Int) (routed : List Routed) (ks : List ShardKey) (R : Redis β)
    (total : SubmitBatchOutcome) (k : ShardKey) :
    ((F.submitShards W B now routed ks R total).1.shards k).inflight = (R.shards k).inflight := by
  induction ks generalizing R total with
  | nil => rfl
  | cons j ks ih =>
    rw [submitShards, ih]
    by_cases hk : k = j
    · subst hk
      simp [submitShard, Shard.submitBatch_inflight]
    · simp [submitShard, hk]

/-- Only an ack touches a lease. -/
theorem Backend.apply_inflight {c : Call} (hc : c.acked? = none) (R : Redis β) (k : ShardKey) :
    ((X.apply R c).shards k).inflight = (R.shards k).inflight := by
  cases c with
  | ack a => simp [Call.acked?] at hc
  | advanceWake host untilMs =>
    simp only [apply, RedisFrontier.advanceWake]
    split
    · by_cases hk : k = X.frontier.policy.shardKeyFromHost host
      · subst hk
        simp [RedisFrontier.onShard, Shard.advanceWake]
      · simp [RedisFrontier.onShard, hk]
    · rfl
  | submitBatch es =>
    simp only [apply, RedisFrontier.submitBatch]
    split
    · rfl
    · split
      · rfl
      · exact RedisFrontier.submitShards_inflight _ _ _ _ _ _ _ _ _
  | _ => rfl

theorem Backend.apply_ack {k : ShardKey} (hk : k ∈ X.frontier.ownedShards) (l : Lease) (R : Redis β) :
    ((X.apply R (.ack (encodeAttempt k l.urlId l.host))).shards k).inflight.score? l = none := by
  simp [apply, RedisFrontier.ack, decodeAttempt_encodeAttempt, hk, RedisFrontier.onShard,
    Shard.ackZrem, Shard.ackHdel, ZSet.score?_zrem]

/-- A delivery without an ack leaves every lease as it was. -/
theorem Backend.after_inflight {log : Log Call Call.Answer} (h : (tally log).acks = []) (R : Redis β)
    (k : ShardKey) : ((X.after log R).shards k).inflight = (R.shards k).inflight := by
  induction log with
  | nil => rfl
  | cons e log ih =>
    have hall : ∀ e' ∈ e :: log, e'.1.acked? = none := List.filterMap_eq_nil_iff.1 h
    have htail : (tally log).acks = [] :=
      List.filterMap_eq_nil_iff.2 fun e' he' => hall e' (List.mem_cons_of_mem _ he')
    have hstep := X.apply_inflight (hall e List.mem_cons_self) (X.after log R) k
    exact hstep.trans (ih htail)

/-- A delivery that acks its attempt leaves no lease of it. -/
theorem Backend.after_acked {log : Log Call Call.Answer} {k : ShardKey}
    (hk : k ∈ X.frontier.ownedShards) {l : Lease}
    (h : (tally log).acks = [encodeAttempt k l.urlId l.host]) (R : Redis β) :
    ((X.after log R).shards k).inflight.score? l = none := by
  induction log with
  | nil => simp [tally] at h
  | cons e log ih =>
    obtain ⟨c, r⟩ := e
    show ((X.apply (X.after log R) c).shards k).inflight.score? l = none
    cases hc : c.acked? with
    | none =>
      have htail : (tally log).acks = [encodeAttempt k l.urlId l.host] := by
        simpa [tally, hc] using h
      have hstep := X.apply_inflight hc (X.after log R) k
      rw [hstep]
      exact ih htail
    | some a =>
      obtain rfl := Call.eq_ack_of_acked hc
      have hcons : a :: (tally log).acks = [encodeAttempt k l.urlId l.host] := by
        simpa [tally, hc] using h
      obtain rfl := List.head_eq_of_cons_eq hcons
      exact X.apply_ack hk l (X.after log R)

end Leases

/-! ## Histories -/

/-- A delivery of `u` that has come to its end. -/
structure Attempt (u : String) where
  pipeline : UrlPipeline
  log : Log Call Call.Answer
  url_eq : pipeline.url.asStr = u
  unblocked : pipeline.blocked = false

namespace Attempt

variable {u : String} (d : Attempt u)

def failed : Bool := (tally d.log).failed

def fetches : Nat := (tally d.log).fetches

def acks : List String := (tally d.log).acks

def maxRetries : Nat := d.pipeline.deps.maxRetries.toNat

/-- Every lease is as the delivery found it, and a reclaim after its expiry puts the URL back. -/
def LeaseKept : Prop :=
  ∀ (β : Type) (X : Backend β) (R : Redis β) (k : ShardKey),
    ((X.after d.log R).shards k).inflight = (R.shards k).inflight ∧
      ∀ (l : Lease) (expiry now : Int) (limit : Nat), (R.shards k).inflight.score? l = some expiry →
        0 ≤ expiry → expiry ≤ f64 now → (R.shards k).inflight.zcard ≤ limit →
        l.urlId ∈ (((X.after d.log R).shards k).reclaim now limit).1.hostQueue l.host

/-- The delivery acked its attempt, and the lease is gone. -/
def Acked : Prop :=
  d.acks = [d.pipeline.attemptId] ∧
    ∀ (β : Type) (X : Backend β) (R : Redis β) (k : ShardKey) (l : Lease),
      k ∈ X.frontier.ownedShards → d.pipeline.attemptId = encodeAttempt k l.urlId l.host →
      ((X.after d.log R).shards k).inflight.score? l = none

end Attempt

/-- Deliveries of `u`, none begun before the last has ended; the latest first. -/
inductive History {S : Type} (K : RetryStore S) (u : String) (s : S) : List (Attempt u) → S → Prop
  | start {s' : S} : Relation.ReflTransGen (K.world u).env s s' → History K u s [] s'
  | deliver {ds : List (Attempt u)} {d : Attempt u} {s₁ s₂ s₃ : S} : History K u s ds s₁ →
      Runs (K.world u) d.pipeline.run [] s₁ () d.log s₂ →
      Relation.ReflTransGen (K.world u).env s₂ s₃ → History K u s (d :: ds) s₃

/-- The failures since the last success. -/
def failureStreak {u : String} (ds : List (Attempt u)) : Nat := (ds.takeWhile Attempt.failed).length

/-- What `max_retries` promises for a URL, from a store that has no row of it, or one with a
count of 0. -/
structure RetryBudget {S : Type} (K : RetryStore S) (u : String) : Prop where
  counted : ∀ {s s' : S} {d : Attempt u} {ds : List (Attempt u)}, K.failures s u = 0 →
    History K u s (d :: ds) s' → d.failed → K.retryCount s' u = some (failureStreak (d :: ds))
  exhausted : ∀ {s s' : S} {d : Attempt u} {ds : List (Attempt u)}, K.failures s u = 0 →
    History K u s (d :: ds) s' → d.failed → d.maxRetries ≤ failureStreak (d :: ds) →
    K.status s' u = some .permanentlyFailed ∧ d.Acked
  spared : ∀ {s s' : S} {d : Attempt u} {ds : List (Attempt u)}, K.failures s u = 0 →
    History K u s (d :: ds) s' → d.failed → failureStreak (d :: ds) < d.maxRetries →
    K.status s' u = some .failedTransient ∧ d.acks = [] ∧ d.LeaseKept
  /-- A URL that always fails, while it is not acked and once it is. -/
  fetched : ∀ {s s' : S} {ds : List (Attempt u)} {m : Nat}, K.failures s u = 0 →
    History K u s ds s' → (∀ d ∈ ds, d.failed ∧ d.maxRetries = m) →
    ((∀ d ∈ ds, d.acks = []) → (ds.map Attempt.fetches).sum < max 1 m) ∧
      ∀ d ds', ds = d :: ds' → (∀ d' ∈ ds', d'.acks = []) → d.acks ≠ [] →
        (ds.map Attempt.fetches).sum = max 1 m

namespace Budget

variable {S : Type} {K : RetryStore S} {u : String} {s s' : S} {d : Attempt u}
  {ds : List (Attempt u)}

theorem streak_failed (h : d.failed = true) : failureStreak (d :: ds) = failureStreak ds + 1 := by
  simp [failureStreak, h]

theorem streak_succeeded (h : d.failed = false) : failureStreak (d :: ds) = 0 := by
  simp [failureStreak, h]

theorem streak_all (h : ∀ d ∈ ds, d.failed = true) : failureStreak ds = ds.length := by
  induction ds with
  | nil => rfl
  | cons d ds ih =>
    rw [streak_failed (h d List.mem_cons_self), ih fun d' hd' => h d' (List.mem_cons_of_mem _ hd'),
      List.length_cons]

theorem Shows.failures {n : Nat} {st : LifecycleStatus} (h : Shows K u n st s) :
    K.failures s u = n := by
  simp [RetryStore.failures, h.1]

/-- The count a delivery leaves is the failureStreak it ends. -/
theorem Ended.failures (h : Ended K u d.pipeline (failureStreak ds) (tally d.log) s) :
    K.failures s u = failureStreak (d :: ds) := by
  cases h with
  | succeeded hT hs =>
    rw [hs.failures, streak_succeeded (by rw [Attempt.failed, hT])]
  | exhausted hT _ hs =>
    rw [hs.failures, streak_failed (by rw [Attempt.failed, hT])]
  | spared hT _ hs =>
    rw [hs.failures, streak_failed (by rw [Attempt.failed, hT])]

/-- The last delivery of a history, with the failures before it. -/
theorem history_ended (hK : K.Counting) (h0 : K.failures s u = 0) :
    ∀ {ds : List (Attempt u)} {s' : S}, History K u s ds s' → K.failures s' u = failureStreak ds ∧
      ∀ d ds', ds = d :: ds' → Ended K u d.pipeline (failureStreak ds') (tally d.log) s' := by
  intro ds s' h
  induction h with
  | start henv =>
    refine ⟨(stable_failures hK 0).rely h0 henv, fun d ds' hds => ?_⟩
    cases hds
  | @deliver ds d s₁ s₂ s₃ _ hrun henv ih =>
    have hend := (safe_run hK d.url_eq d.unblocked ih.1).runs hrun
    have hend := (stable_ended hK _ _ _).rely hend henv
    refine ⟨hend.failures, fun d' ds' hds => ?_⟩
    cases hds
    exact hend

/-- What went before a delivery is a history. -/
theorem History.suffix (h : History K u s ds s') {ds' : List (Attempt u)} (hs : ds' <:+ ds) :
    ∃ s₁, History K u s ds' s₁ := by
  induction h with
  | start henv =>
    rw [List.suffix_nil.1 hs]
    exact ⟨_, .start henv⟩
  | deliver hprev hrun henv ih =>
    rcases List.suffix_cons_iff.1 hs with rfl | hs
    · exact ⟨_, .deliver hprev hrun henv⟩
    · exact ih hs

theorem ended_fetches (h : Ended K u d.pipeline (failureStreak ds) (tally d.log) s) : d.fetches = 1 := by
  cases h with
  | succeeded hT _ => rw [Attempt.fetches, hT]
  | exhausted hT _ _ => rw [Attempt.fetches, hT]
  | spared hT _ _ => rw [Attempt.fetches, hT]

/-- A failing delivery acks exactly where the budget is spent. -/
theorem acks_eq_nil_iff (h : Ended K u d.pipeline (failureStreak ds) (tally d.log) s)
    (hf : d.failed = true) : d.acks = [] ↔ failureStreak (d :: ds) < d.maxRetries := by
  rw [streak_failed hf]
  unfold Attempt.acks Attempt.maxRetries
  cases h with
  | succeeded hT _ => simp [Attempt.failed, hT] at hf
  | exhausted hT hm _ =>
    rw [hT]
    simp only [List.cons_ne_nil, false_iff]
    omega
  | spared hT hm _ =>
    rw [hT]
    simp only [true_iff]
    omega

theorem fetches_history (hK : K.Counting) (h0 : K.failures s u = 0) (h : History K u s ds s') :
    (ds.map Attempt.fetches).sum = ds.length := by
  induction h with
  | start _ => rfl
  | @deliver ds d s₁ s₂ s₃ hprev hrun henv ih =>
    have hend := (history_ended hK h0 (.deliver hprev hrun henv)).2 d ds rfl
    rw [List.map_cons, List.sum_cons, ended_fetches hend, ih, List.length_cons, Nat.add_comm]

theorem acked_of_acks {d : Attempt u} (h : d.acks = [d.pipeline.attemptId]) : d.Acked := by
  refine ⟨h, fun β X R k l hk hid => X.after_acked hk ?_ R⟩
  rw [← hid]
  exact h

theorem leaseKept_of_acks {d : Attempt u} (h : d.acks = []) : d.LeaseKept := by
  intro β X R k
  have hkeep := X.after_inflight h R k
  refine ⟨hkeep, fun l expiry now limit hl h0 h1 hlim => ?_⟩
  rw [← hkeep] at hl hlim
  exact Shard.mem_reclaim hl h0 h1 hlim

/-- An always failing URL is fetched until its budget is spent. -/
theorem fetched_of_failing (hK : K.Counting) (h0 : K.failures s u = 0) (h : History K u s ds s')
    {m : Nat} (hall : ∀ d ∈ ds, d.failed ∧ d.maxRetries = m) :
    ((∀ d ∈ ds, d.acks = []) → (ds.map Attempt.fetches).sum < max 1 m) ∧
      ∀ d ds', ds = d :: ds' → (∀ d' ∈ ds', d'.acks = []) → d.acks ≠ [] →
        (ds.map Attempt.fetches).sum = max 1 m := by
  -- a delivery acks exactly when as many as it have failed as the budget allows
  have hack : ∀ d ds', (d :: ds') <:+ ds → (d.acks = [] ↔ ds'.length + 1 < m) := by
    intro d ds' hsuf
    obtain ⟨s₁, hs₁⟩ := History.suffix h hsuf
    have hmem : ∀ d' ∈ d :: ds', d'.failed ∧ d'.maxRetries = m := fun d' hd' => hall d' (hsuf.subset hd')
    have hend := (history_ended hK h0 hs₁).2 d ds' rfl
    rw [acks_eq_nil_iff hend (hmem d List.mem_cons_self).1, streak_all fun d' hd' => (hmem d' hd').1,
      List.length_cons, (hmem d List.mem_cons_self).2]
  rw [fetches_history hK h0 h]
  refine ⟨fun hnone => ?_, fun d ds' hds hprev hlast => ?_⟩
  · cases ds with
    | nil => exact Nat.lt_of_lt_of_le Nat.one_pos (Nat.le_max_left 1 m)
    | cons d ds' =>
      have hlt := (hack d ds' (List.suffix_refl _)).1 (hnone d List.mem_cons_self)
      rw [List.length_cons]
      exact Nat.lt_of_lt_of_le hlt (Nat.le_max_right 1 m)
  · subst hds
    have hge : ¬ ds'.length + 1 < m := fun hlt => hlast ((hack d ds' (List.suffix_refl _)).2 hlt)
    rw [List.length_cons]
    cases ds' with
    | nil =>
      simp only [List.length_nil] at hge ⊢
      omega
    | cons d' ds'' =>
      have hlt := (hack d' ds'' (List.suffix_cons d _)).1 (hprev d' List.mem_cons_self)
      simp only [List.length_cons] at hge hlt ⊢
      omega

theorem budget_of_counting (hK : K.Counting) (u : String) : RetryBudget K u where
  counted h0 h hf := by
    have hend := (history_ended hK h0 h).2 _ _ rfl
    rw [streak_failed hf]
    cases hend with
    | succeeded hT _ => simp [Attempt.failed, hT] at hf
    | exhausted _ _ hs => exact hs.1
    | spared _ _ hs => exact hs.1
  exhausted h0 h hf hm := by
    have hend := (history_ended hK h0 h).2 _ _ rfl
    rw [streak_failed hf] at hm
    cases hend with
    | succeeded hT _ => simp [Attempt.failed, hT] at hf
    | exhausted hT _ hs => exact ⟨hs.2, acked_of_acks (by rw [Attempt.acks, hT])⟩
    | spared _ hlt _ => exact absurd hm (Nat.not_le.2 hlt)
  spared h0 h hf hm := by
    have hend := (history_ended hK h0 h).2 _ _ rfl
    rw [streak_failed hf] at hm
    cases hend with
    | succeeded hT _ => simp [Attempt.failed, hT] at hf
    | exhausted _ hge _ => exact absurd hge (Nat.not_le.2 hm)
    | spared hT _ hs =>
      have hacks : Attempt.acks _ = [] := congrArg Tally.acks hT
      exact ⟨hs.2, hacks, leaseKept_of_acks hacks⟩
  fetched h0 h hall := fetched_of_failing hK h0 h hall

end Budget

/-- **The retry budget**, with either ledger. -/
theorem retry_budget (u : String) :
    RetryBudget Ledger.retryStore u ∧ RetryBudget Fakes.LedgerState.retryStore u :=
  ⟨Budget.budget_of_counting Ledger.retryStore_counting u,
    Budget.budget_of_counting Fakes.LedgerState.retryStore_counting u⟩

/-- The host refuses every connection; all else answers. -/
def refusing (l : Ledger) : (c : Call) → c.Answer × Ledger
  | .fetch _ => (.error (.transport .connectReset "connection refused"), l)
  | c => answering .allow (.ok "blob") l c

theorem refusing_act (u : String) (l : Ledger) (c : Call) (h : Granted c (refusing l c).1) :
    (Ledger.retryStore.world u).act l c (refusing l c).1 (refusing l c).2 := by
  refine ⟨h, ?_⟩
  cases c with
  | ledger c => exact ⟨trivial, rfl⟩
  | _ => rfl

def UrlPipeline.twoRetries : UrlPipeline :=
  { UrlPipeline.sampleA with deps := { WorkerDeps.sample with maxRetries := 2 } }

/-- A delivery on `l`. -/
def refusedOn (l : Ledger) : Log Call Call.Answer × Ledger :=
  Prog.trace refusing UrlPipeline.twoRetries.run [] l

def Attempt.refused (l : Ledger) : Attempt "https://a.test/" :=
  ⟨.twoRetries, (refusedOn l).1, rfl, rfl⟩

theorem refused_runs (l : Ledger)
    (h : ((refusedOn l).1.all fun e => decide (Granted e.1 e.2)) = true) :
    Runs (Ledger.retryStore.world "https://a.test/") UrlPipeline.twoRetries.run [] l ()
      (refusedOn l).1 (refusedOn l).2 :=
  Prog.runs_trace (refusing_act _) _ _ _ fun e he => of_decide_eq_true (List.all_eq_true.1 h e he)

/-- The second failure spends a budget of two. -/
theorem retry_budget_two :
    Ledger.retryStore.status (refusedOn (refusedOn .empty).2).2 "https://a.test/" =
        some .permanentlyFailed ∧
      (Attempt.refused (refusedOn .empty).2).acks = [UrlPipeline.twoRetries.attemptId] := by
  have hfirst : History Ledger.retryStore "https://a.test/" .empty [.refused .empty]
      (refusedOn .empty).2 :=
    .deliver (.start .refl) (refused_runs .empty (by decide +kernel)) .refl
  have hboth : History Ledger.retryStore "https://a.test/" .empty
      [.refused (refusedOn .empty).2, .refused .empty] (refusedOn (refusedOn .empty).2).2 :=
    .deliver hfirst (refused_runs (refusedOn .empty).2 (by decide +kernel)) .refl
  have hend := (retry_budget "https://a.test/").1.exhausted rfl hboth (by decide +kernel)
    (by decide +kernel)
  exact ⟨hend.1, hend.2.1⟩

end Crawlrs
