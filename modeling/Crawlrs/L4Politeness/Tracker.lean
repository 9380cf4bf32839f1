import Crawlrs.L4Politeness.Backoff
import Crawlrs.L4Runtime.Pipeline

/-!
# The failure state of a host (`crawlrs-politeness/src/backoff_tracker.rs`)

One Redis hash per host holds its count of consecutive failures, the end of its
backoff window and the kind of its last failure. `recordFailure` is two round-trips,
`hincr` and `hset`; `resetOnSuccess` deletes the three fields, but only for a host
this process has in its cache of hosts with failure state, which `isOpen` and
`recordFailure` fill.

A visit is a check of the breaker, which goes no further on an error, and what follows
it. The cached tracker is compared with one that always deletes: `visit` and `plainVisit`.
`visits_agree_iff` says for which hashes they cannot be told apart.
-/
namespace Crawlrs

/-- The texts of the Redis crate are left out.
mirrors crates/crawlrs-politeness/src/error.rs:13-32 -/
inductive PolitenessError
  | redis
  | shardNotOwned (got : ShardKey) (owned : List ShardKey)
  | noHost (url : String)
deriving DecidableEq, Repr

/-- The hash `hoststate:{host}`; an absent field is `none`.
mirrors crates/crawlrs-politeness/src/backoff_tracker.rs:29-31 -/
structure HostState where
  consecutiveFailures : Option Nat
  backoffUntilMs : Option UInt64
  lastKind : Option FailureKind
deriving DecidableEq, Repr

namespace HostState

def absent : HostState := ⟨none, none, none⟩

/-- The reply of `HGET` as `Option<u32>`. -/
def failures (r : HostState) : Except PolitenessError (Option UInt32) :=
  match r.consecutiveFailures with
  | none => .ok none
  | some n => if n < 2 ^ 32 then .ok (some (UInt32.ofNat n)) else .error .redis

/-- `HINCRBY`, refused past `i64`. An integer reply is cast to `u32`, so it wraps; the text
`HGET` answers with is parsed. -/
def hincr (r : HostState) : Except PolitenessError UInt32 × HostState :=
  let n := r.consecutiveFailures.getD 0 + 1
  if 2 ^ 63 ≤ n then (.error .redis, r)
  else (.ok (UInt32.ofNat n), { r with consecutiveFailures := some n })

/-- The two `HSET`s of one pipeline. -/
def hset (r : HostState) (untilMs : UInt64) (kind : FailureKind) : HostState :=
  { r with backoffUntilMs := some untilMs, lastKind := some kind }

end HostState

/-- mirrors crates/crawlrs-politeness/src/backoff_tracker.rs:33-49 -/
structure RedisBackoffTracker where
  policy : HostHashShardPolicy
  ownedShards : List ShardKey
  backoff : BackoffPolicy

/-- The hash of one host, and whether the host is in `hosts_with_failure_state`. -/
structure Tracked where
  redis : HostState
  cached : Bool
deriving DecidableEq, Repr

/-- `SystemTime::now().checked_add(backoff)` in milliseconds, 0 where it is no time.
mirrors crates/crawlrs-politeness/src/backoff_tracker.rs:174-178 -/
def untilScore (now : Int) (backoff : ℚ) : UInt64 :=
  let wake := now + backoff * 10 ^ 9
  if wake < 2 ^ 63 * 10 ^ 9 then millis ⌊wake⌋ else 0

namespace RedisBackoffTracker

variable (T : RedisBackoffTracker)

/-- mirrors crates/crawlrs-politeness/src/backoff_tracker.rs:83-91 -/
def assertOwned (shard : ShardKey) : Except PolitenessError Unit :=
  if shard ∈ T.ownedShards then .ok () else .error (.shardNotOwned shard T.ownedShards)

/-- The verdict on what was read.
mirrors crates/crawlrs-politeness/src/backoff_tracker.rs:119-132 -/
def opens (observedFailures : UInt32) (backoffUntilMs : Option UInt64) (nowMs : UInt64) : Bool :=
  if observedFailures < T.backoff.failureThreshold then false
  else backoffUntilMs.any (nowMs < ·)

/-- mirrors crates/crawlrs-politeness/src/backoff_tracker.rs:96-133 -/
def isOpen (host : Host) (nowMs : UInt64) (s : Tracked) : Except PolitenessError Bool × Tracked :=
  match T.assertOwned (T.policy.shardKeyFromHost host) with
  | .error e => (.error e, s)
  | .ok () =>
    match s.redis.failures with
    | .error e => (.error e, s)
    | .ok failures =>
      let observedFailures := failures.getD 0
      (.ok (T.opens observedFailures s.redis.backoffUntilMs nowMs),
        { s with cached := observedFailures ≠ 0 })

/-- mirrors crates/crawlrs-politeness/src/backoff_tracker.rs:135-201 -/
def recordFailure (url : CanonicalUrl) (kind : FailureKind) (serverHint : Option Duration)
    (now : Int) (s : Tracked) : Except PolitenessError NextWake × Tracked :=
  match url.host with
  | none => (.error (.noHost url.asStr), s)
  | some host =>
    match T.assertOwned (T.policy.shardKey url) with
    | .error e => (.error e, s)
    | .ok () =>
      match s.redis.hincr with
      | (.error e, redis) => (.error e, { s with redis })
      | (.ok newFailures, redis) =>
        let backoff := T.backoff.computeBackoff newFailures kind serverHint
        let untilScore := untilScore now backoff
        (.ok ⟨host, untilScore⟩, ⟨redis.hset untilScore kind, true⟩)

/-- mirrors crates/crawlrs-politeness/src/backoff_tracker.rs:203-232 -/
def resetOnSuccess (host : Host) (s : Tracked) : Except PolitenessError Unit × Tracked :=
  if s.cached then
    match T.assertOwned (T.policy.shardKeyFromHost host) with
    | .error e => (.error e, s)
    | .ok () => (.ok (), ⟨.absent, false⟩)
  else (.ok (), s)

end RedisBackoffTracker

/-! ## Visits -/

/-- What follows the check of a visit. -/
inductive VisitOutcome
  | nothing
  | failure (kind : FailureKind) (serverHint : Option Duration) (now : Int)
  | success

/-- One visit of a host. The cache may have dropped the host since the visit before. -/
structure HostVisit (host : Host) where
  evicted : Bool
  url : CanonicalUrl
  host_eq : url.host = some host
  checkedAt : UInt64
  outcome : VisitOutcome

namespace RedisBackoffTracker

variable (T : RedisBackoffTracker) {host : Host}

/-- mirrors crates/crawlrs-politeness/src/composite.rs:207-245: `check` up to the breaker, then
`record_failure` or the reset of `record_fetch` -/
def visit (s : Tracked) (v : HostVisit host) : Except PolitenessError Bool × Tracked :=
  let s := if v.evicted then { s with cached := false } else s
  match T.isOpen host v.checkedAt s with
  | (.error e, s) => (.error e, s)
  | (.ok answer, s) => (.ok answer,
      match v.outcome with
      | .nothing => s
      | .failure kind serverHint now => (T.recordFailure v.url kind serverHint now s).2
      | .success => (T.resetOnSuccess host s).2)

/-- The same visit without a cache: every success deletes. -/
def plainVisit (r : HostState) (v : HostVisit host) : Except PolitenessError Bool × HostState :=
  match T.isOpen host v.checkedAt ⟨r, false⟩ with
  | (.error e, _) => (.error e, r)
  | (.ok answer, _) => (.ok answer,
      match v.outcome with
      | .nothing => r
      | .failure kind serverHint now => (T.recordFailure v.url kind serverHint now ⟨r, false⟩).2.redis
      | .success => .absent)

/-- The answers of a sequence of visits, each with the hash after it. -/
def visits (s : Tracked) : List (HostVisit host) → List (Except PolitenessError Bool × HostState)
  | [] => []
  | v :: vs => ((T.visit s v).1, (T.visit s v).2.redis) :: visits (T.visit s v).2 vs

def plainVisits (r : HostState) : List (HostVisit host) → List (Except PolitenessError Bool × HostState)
  | [] => []
  | v :: vs => T.plainVisit r v :: plainVisits (T.plainVisit r v).2 vs

/-- The host's shard is one of this process. -/
def Owns (host : Host) : Prop := T.policy.shardKeyFromHost host ∈ T.ownedShards

end RedisBackoffTracker

/-- A hash without a count has nothing else either. -/
def HostState.Tidy (r : HostState) : Prop := r.consecutiveFailures.getD 0 ≠ 0 ∨ r = .absent

theorem HostState.failures_eq_zero {r : HostState} {failures : Option UInt32}
    (h : r.failures = .ok failures) : failures.getD 0 = 0 ↔ r.consecutiveFailures.getD 0 = 0 := by
  unfold HostState.failures at h
  split at h
  · rename_i hnone
    cases h
    simp [hnone]
  · rename_i n hsome
    split at h
    · rename_i hn
      cases h
      rw [hsome, Option.getD_some, Option.getD_some, ← UInt32.toNat_inj, UInt32.toNat_ofNat',
        Nat.mod_eq_of_lt hn]
      rfl
    · cases h

namespace RedisBackoffTracker

variable {T : RedisBackoffTracker} {host : Host}

theorem assertOwned_of_owns {shard : ShardKey} (h : shard ∈ T.ownedShards) :
    T.assertOwned shard = .ok () := if_pos h

theorem assertOwned_of_not_owns {shard : ShardKey} (h : shard ∉ T.ownedShards) :
    T.assertOwned shard = .error (.shardNotOwned shard T.ownedShards) := if_neg h

/-! ## One visit -/

theorem isOpen_redis (nowMs : UInt64) (s : Tracked) :
    (T.isOpen host nowMs s).2.redis = s.redis := by
  unfold isOpen
  split
  · rfl
  · split <;> rfl

/-- The answer does not depend on the cache. -/
theorem isOpen_answer (nowMs : UInt64) (s : Tracked) :
    (T.isOpen host nowMs s).1 = (T.isOpen host nowMs ⟨s.redis, false⟩).1 := by
  unfold isOpen
  cases T.assertOwned (T.policy.shardKeyFromHost host) with
  | error e => rfl
  | ok u =>
    cases s.redis.failures with
    | error e => rfl
    | ok failures => rfl

/-- Once a check has answered, the host is cached exactly if its count is not zero. -/
theorem isOpen_cached {nowMs : UInt64} {s : Tracked} {answer : Bool}
    (h : (T.isOpen host nowMs s).1 = .ok answer) : T.Owns host ∧
      ((T.isOpen host nowMs s).2.cached ↔ s.redis.consecutiveFailures.getD 0 ≠ 0) := by
  by_cases hown : T.policy.shardKeyFromHost host ∈ T.ownedShards
  · refine ⟨hown, ?_⟩
    rcases hf : s.redis.failures with e | failures
    · simp [isOpen, assertOwned_of_owns hown, hf] at h
    · simp [isOpen, assertOwned_of_owns hown, hf, HostState.failures_eq_zero hf]
  · simp [isOpen, assertOwned_of_not_owns hown] at h

theorem recordFailure_redis (url : CanonicalUrl) (kind : FailureKind) (serverHint : Option Duration)
    (now : Int) (s : Tracked) : (T.recordFailure url kind serverHint now s).2.redis =
      (T.recordFailure url kind serverHint now ⟨s.redis, false⟩).2.redis := by
  unfold recordFailure
  cases url.host with
  | none => rfl
  | some h =>
    cases T.assertOwned (T.policy.shardKey url) with
    | error e => rfl
    | ok u =>
      cases s.redis.hincr with
      | mk reply redis => cases reply <;> rfl

/-- A failure leaves a count behind, or the hash as it was. -/
theorem tidy_recordFailure {url : CanonicalUrl} {kind : FailureKind} {serverHint : Option Duration}
    {now : Int} {s : Tracked} (h : s.redis.Tidy) :
    (T.recordFailure url kind serverHint now s).2.redis.Tidy := by
  unfold recordFailure
  cases url.host with
  | none => exact h
  | some x =>
    cases T.assertOwned (T.policy.shardKey url) with
    | error e => exact h
    | ok u =>
      simp only [HostState.hincr]
      by_cases hover : 2 ^ 63 ≤ s.redis.consecutiveFailures.getD 0 + 1
      · simp only [hover, if_true]
        exact h
      · simp only [hover, if_false]
        exact Or.inl (by simp [HostState.hset])

/-- **One visit of a tidy hash.** Cached or not, the same answer and the same hash, tidy again. -/
theorem visit_agrees {s : Tracked} (h : s.redis.Tidy) (v : HostVisit host) :
    (T.visit s v).1 = (T.plainVisit s.redis v).1 ∧
      (T.visit s v).2.redis = (T.plainVisit s.redis v).2 ∧ (T.visit s v).2.redis.Tidy := by
  -- the eviction changes nothing that the check reads
  obtain ⟨s', hs', hr⟩ : ∃ s' : Tracked, (if v.evicted then { s with cached := false } else s) = s' ∧
      s'.redis = s.redis := by
    refine ⟨_, rfl, ?_⟩
    split <;> rfl
  have hans : (T.isOpen host v.checkedAt s').1 = (T.isOpen host v.checkedAt ⟨s'.redis, false⟩).1 :=
    isOpen_answer _ _
  have hred : (T.isOpen host v.checkedAt s').2.redis = s'.redis := isOpen_redis _ _
  have hcached : ∀ answer, (T.isOpen host v.checkedAt s').1 = .ok answer → T.Owns host ∧
      ((T.isOpen host v.checkedAt s').2.cached ↔ s'.redis.consecutiveFailures.getD 0 ≠ 0) :=
    fun _ => isOpen_cached
  rw [hr] at hans hred hcached
  simp only [visit, plainVisit, hs']
  rcases hopen : T.isOpen host v.checkedAt s' with ⟨reply, s1⟩
  rcases hplain : T.isOpen host v.checkedAt ⟨s.redis, false⟩ with ⟨reply', s1'⟩
  rw [hopen] at hans hred hcached
  rw [hplain] at hans
  simp only at hans hred hcached
  subst hans
  cases reply with
  | error e =>
    simp only
    rw [hred]
    exact ⟨trivial, rfl, h⟩
  | ok answer =>
    obtain ⟨hown, hc⟩ := hcached answer rfl
    cases v.outcome with
    | nothing =>
      simp only
      rw [hred]
      exact ⟨trivial, rfl, h⟩
    | failure kind serverHint now =>
      simp only
      refine ⟨trivial, ?_, tidy_recordFailure (hred ▸ h)⟩
      rw [recordFailure_redis, hred]
    | success =>
      simp only [resetOnSuccess]
      cases hb : s1.cached with
      | true =>
        simp only [if_true, assertOwned_of_owns hown]
        exact ⟨trivial, trivial, Or.inr rfl⟩
      | false =>
        -- the host is not cached, so its count is zero and a tidy hash is empty
        have habs : s.redis = .absent := by
          rcases h with hne | habs
          · exact absurd (hc.2 hne) (by simp [hb])
          · exact habs
        simp only [Bool.false_eq_true, if_false, hred, habs]
        exact ⟨trivial, trivial, Or.inr rfl⟩

theorem visits_agree {s : Tracked} (h : s.redis.Tidy) (vs : List (HostVisit host)) :
    T.visits s vs = T.plainVisits s.redis vs := by
  induction vs generalizing s with
  | nil => rfl
  | cons v vs ih =>
    obtain ⟨h1, h2, h3⟩ := visit_agrees (T := T) h v
    rw [visits, plainVisits, ih h3, h1, h2]

theorem isOpen_of_not_owns (h : ¬ T.Owns host) (nowMs : UInt64) (s : Tracked) :
    T.isOpen host nowMs s =
      (.error (.shardNotOwned (T.policy.shardKeyFromHost host) T.ownedShards), s) := by
  unfold isOpen
  rw [assertOwned_of_not_owns h]

/-- A process that does not own the host's shard does nothing. -/
theorem visits_agree_of_not_owns (h : ¬ T.Owns host) (vs : List (HostVisit host)) :
    ∀ s : Tracked, T.visits s vs = T.plainVisits s.redis vs := by
  induction vs with
  | nil => intro s; rfl
  | cons v vs ih =>
    intro s
    have hred : (if v.evicted then { s with cached := false } else s).redis = s.redis := by
      split <;> rfl
    rw [visits, plainVisits, ih]
    simp only [visit, plainVisit, isOpen_of_not_owns h, hred]

/-- A success on a hash without a count leaves it as it is. -/
theorem visit_success_of_zero {r : HostState} (hown : T.Owns host)
    (hzero : r.consecutiveFailures.getD 0 = 0) {v : HostVisit host} (hv : v.outcome = .success) :
    (T.visit ⟨r, false⟩ v).2.redis = r ∧ (T.plainVisit r v).2 = .absent := by
  have hf : ∃ failures, r.failures = .ok failures := by
    cases hc : r.consecutiveFailures with
    | none => exact ⟨none, by simp [HostState.failures, hc]⟩
    | some n =>
      rw [hc] at hzero
      exact ⟨some (UInt32.ofNat n), by simp [HostState.failures, hc, show n = 0 from hzero]⟩
  obtain ⟨failures, hf⟩ := hf
  have hz := (HostState.failures_eq_zero hf).2 hzero
  simp [visit, plainVisit, isOpen, assertOwned_of_owns hown, hf, hz, hv, resetOnSuccess]

/-- **The cache of failing hosts.** From a given hash and an empty cache, no sequence of visits
and evictions tells the cached tracker from one that always deletes, in any answer or in the hash
after any visit, exactly if a hash without a count is empty. -/
theorem visits_agree_iff (T : RedisBackoffTracker) (url : CanonicalUrl) (host : Host)
    (hurl : url.host = some host) (r : HostState) :
    (∀ vs : List (HostVisit host), T.visits ⟨r, false⟩ vs = T.plainVisits r vs) ↔
      (T.Owns host → r.Tidy) := by
  constructor
  · intro h hown
    by_cases hzero : r.consecutiveFailures.getD 0 = 0
    · right
      have hvs := h [⟨false, url, hurl, 0, .success⟩]
      obtain ⟨h1, h2⟩ := visit_success_of_zero hown hzero
        (v := ⟨false, url, hurl, 0, .success⟩) rfl
      simp only [visits, plainVisits, List.cons.injEq, and_true, Prod.ext_iff] at hvs
      rw [← h1, hvs.2, h2]
    · exact Or.inl hzero
  · intro h vs
    by_cases hown : T.Owns host
    · exact visits_agree (s := ⟨r, false⟩) (h hown) vs
    · exact visits_agree_of_not_owns hown vs ⟨r, false⟩

/-- A tracker of one shard under the default policy. -/
def sample : RedisBackoffTracker := ⟨⟨1, HostHashShardPolicy.one_shard⟩, [0], .default⟩

/-- A host that failed three times before this process started. -/
theorem visits_agree_iff_restarted : UrlEntry.seedA.url.host = some "a.test" ∧
    ((∀ vs : List (HostVisit "a.test"),
      sample.visits ⟨⟨some 3, some 9000, some .timeout⟩, false⟩ vs =
        sample.plainVisits ⟨some 3, some 9000, some .timeout⟩ vs) ↔
      (sample.Owns "a.test" → (⟨some 3, some 9000, some .timeout⟩ : HostState).Tidy)) :=
  ⟨rfl, visits_agree_iff sample UrlEntry.seedA.url "a.test" rfl _⟩

/-- The hash after `HINCRBY` of a failure, the reset of another worker's success, and `HSET` of
the failure: the window outlives the success that follows. -/
theorem visits_differ_orphaned : ¬ ∀ vs : List (HostVisit "a.test"),
    sample.visits ⟨HostState.absent.hset 31000 .timeout, false⟩ vs =
      sample.plainVisits (HostState.absent.hset 31000 .timeout) vs := by
  intro h
  have hvs := h [⟨false, UrlEntry.seedA.url, rfl, 2000, .success⟩]
  exact absurd hvs (by decide)

end RedisBackoffTracker

end Crawlrs
