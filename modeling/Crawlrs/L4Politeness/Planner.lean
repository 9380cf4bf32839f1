import Crawlrs.L4Runtime.Pipeline

/-!
# When a host may be fetched next (`wake_planner.rs`, `noop.rs`, `composite.rs`)

After a fetch or a failure politeness answers a plan for the host. The Redis-backed
wiring adds the host's delay to the clock, and a backoff after a failure; the no-op
trio answers the clock itself. Storing the plan is the worker's part.

A backoff is floating-point arithmetic over the host's record in Redis, so what
`record_failure` answers there is left open.
-/
namespace Crawlrs

/-- The overrides of the host delay are all that is kept of `per_domain`; delays are in nanoseconds.
mirrors crates/crawlrs-politeness/src/config.rs:25-69 -/
structure PolitenessConfig where
  hostDelay : Nat
  perDomain : List (Host × Option Nat)

/-- mirrors crates/crawlrs-politeness/src/config.rs:97-104 -/
def PolitenessConfig.hasHostDelay (config : PolitenessConfig) : Bool :=
  config.hostDelay != 0 || config.perDomain.any fun o => o.2.any (· != 0)

/-- mirrors crates/crawlrs-politeness/src/wake_planner.rs:34-39 -/
structure RedisWakePlanner where
  policy : HostHashShardPolicy
  ownedShards : List ShardKey
  config : PolitenessConfig

namespace RedisWakePlanner

/-- mirrors crates/crawlrs-politeness/src/wake_planner.rs:66-72 -/
def effectiveHostDelay (P : RedisWakePlanner) (host : Host) : Nat :=
  ((P.config.perDomain.lookup host).bind id).getD P.config.hostDelay

/-- `checked_add`, then milliseconds since the epoch; 0 where either fails.
mirrors crates/crawlrs-politeness/src/wake_planner.rs:77-98 -/
def recordFetch (P : RedisWakePlanner) (host : Host) (ns : Int) : Except Error NextWake :=
  let shard := P.policy.shardKeyFromHost host
  if shard ∈ P.ownedShards then
    let delay := if P.config.hasHostDelay then P.effectiveHostDelay host else 0
    let wake := ns + delay
    .ok ⟨host, if wake < 2 ^ 63 * 10 ^ 9 then millis wake else 0⟩
  else .error (.politeness (s!"shard {shard} is not owned by this politeness instance " ++
    s!"(owns {P.ownedShards})"))

end RedisWakePlanner

/-- The two ways the factory wires `CompositePoliteness`. -/
inductive Wiring
  | redis (planner : RedisWakePlanner)
  | noop

namespace Wiring

def noHost (url : CanonicalUrl) : Error := .politeness ("url has no host: " ++ url.asStr)

/-- What `record_fetch` may answer at a reading of the clock: clearing the failure state is a
round-trip that can fail.
mirrors crates/crawlrs-politeness/src/composite.rs:233-245, noop.rs:21-26 -/
def FetchPlan (w : Wiring) (url : CanonicalUrl) (ns : Int) (r : Except Error NextWake) : Prop :=
  match url.host with
  | none => r = .error (noHost url)
  | some host =>
    match w with
    | .redis planner => r = planner.recordFetch host ns ∨ ∃ e, r = .error e
    | .noop => r = .ok ⟨host, millis ns⟩

/-- What `record_failure` may answer.
mirrors crates/crawlrs-politeness/src/composite.rs:248-255, backoff_tracker.rs:135-201, noop.rs:48-58 -/
def FailurePlan (w : Wiring) (url : CanonicalUrl) (ns : Int) (r : Except Error NextWake) : Prop :=
  match w with
  | .redis _ => (∃ e, r = .error e) ∨ ∃ host untilMs, url.host = some host ∧ r = .ok ⟨host, untilMs⟩
  | .noop => r = .ok ⟨url.host.getD "", millis ns⟩

/-- The answer to `record_fetch` when the round-trip succeeds. -/
def recordFetch (w : Wiring) (url : CanonicalUrl) (ns : Int) : Except Error NextWake :=
  match url.host with
  | none => .error (noHost url)
  | some host =>
    match w with
    | .redis planner => planner.recordFetch host ns
    | .noop => .ok ⟨host, millis ns⟩

theorem fetchPlan_recordFetch (w : Wiring) (url : CanonicalUrl) (ns : Int) :
    w.FetchPlan url ns (w.recordFetch url ns) := by
  unfold FetchPlan recordFetch
  cases url.host with
  | none => rfl
  | some host =>
    cases w with
    | redis planner => exact .inl rfl
    | noop => rfl

/-- An answer to `record_failure` that needs no host record: a tracker cannot reach Redis. -/
def failureUnrecorded (w : Wiring) (url : CanonicalUrl) (ns : Int) : Except Error NextWake :=
  match w with
  | .redis _ => .error (.politeness "redis: connection refused")
  | .noop => .ok ⟨url.host.getD "", millis ns⟩

theorem failurePlan_unrecorded (w : Wiring) (url : CanonicalUrl) (ns : Int) :
    w.FailurePlan url ns (w.failureUnrecorded url ns) := by
  cases w with
  | redis planner => exact .inl ⟨_, rfl⟩
  | noop => rfl

/-- Redis-backed over one shard, with a host delay of a second. -/
def second : Wiring := .redis ⟨⟨1, HostHashShardPolicy.one_shard⟩, [0], ⟨10 ^ 9, []⟩⟩

variable {w : Wiring} {url : CanonicalUrl} {ns : Int} {r : Except Error NextWake} {next : NextWake}

/-- A plan is for the URL's host. -/
theorem FetchPlan.host (h : w.FetchPlan url ns r) (hr : r = .ok next) : url.host = some next.host := by
  subst hr
  unfold FetchPlan at h
  cases hu : url.host with
  | none => simp [hu] at h
  | some host =>
    simp only [hu] at h
    cases w with
    | noop => cases h; rfl
    | redis planner =>
      rcases h with h | ⟨e, h⟩
      · unfold RedisWakePlanner.recordFetch at h
        dsimp only at h
        split at h
        · cases h; rfl
        · cases h
      · cases h

theorem FailurePlan.host {host : Host} (hu : url.host = some host) (h : w.FailurePlan url ns r)
    (hr : r = .ok next) : url.host = some next.host := by
  subst hr
  cases w with
  | noop =>
    cases h
    simp [hu]
  | redis planner =>
    rcases h with ⟨e, h⟩ | ⟨host', untilMs, hu', h⟩
    · cases h
    · cases h
      exact hu'

end Wiring

end Crawlrs
