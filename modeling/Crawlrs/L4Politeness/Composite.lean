import Crawlrs.Core.Loop
import Crawlrs.L4Politeness.Planner
import Crawlrs.L4Politeness.Robots
import Crawlrs.L4Politeness.Tracker

/-!
# The politeness layer of a worker (`composite.rs`, `robots_checker.rs`)

`check` asks the breaker and then robots.txt; a fetch that was allowed is followed
by `record_fetch` or `record_failure`. Behind them stand two caches of the process,
each of which may lose entries between two visits: the hosts with failure state, and
the bodies of robots.txt. Redis holds the failures and the bodies themselves.

A `HostGate` is what the layer says it keeps of one host: the failures since the last
success and the robots.txt that was loaded first. It has no cache and knows no other
host.

* `visit_gate`: a visit is a visit of its host's gate, whatever the two caches lost.
* `politeness_by_host`: in every history, the replies to the visits of a host are
  those of its gate.
* `circuit_iff`: when the breaker is open, read off the visits before.

The clock is what a visit says it read. Redis answers, and while a history lasts no
robots.txt expires in it (`Staleness` has the times of that).
-/
namespace Crawlrs

/-- The message of the Redis crate is not modelled.
mirrors crates/crawlrs-politeness/src/error.rs:13-38 -/
def PolitenessError.toError (redisText : String) : PolitenessError → Error
  | .redis => .politeness ("redis error: " ++ redisText)
  | .shardNotOwned got owned => .politeness
      s!"shard {got} is not owned by this politeness instance (owns {owned})"
  | .noHost url => .politeness ("url has no host: " ++ url)

/-- mirrors crates/crawlrs-politeness/src/robots_checker.rs:16-25 -/
structure RedisRobotsChecker where
  robots : RobotsCache
  userAgent : String

/-- mirrors crates/crawlrs-politeness/src/robots_checker.rs:29-34 -/
def RedisRobotsChecker.allowed (R : RedisRobotsChecker) (url : CanonicalUrl) (S : RobotsState) :
    Except Error Bool × RobotsState :=
  let (answer, S) := R.robots.allowed url R.userAgent S
  (answer.mapError fun message => .politeness ("robots: " ++ message), S)

/-- The Redis-backed parts with the `obey_robots_txt` of the config and of its overrides.
mirrors crates/crawlrs-politeness/src/composite.rs:45-62 -/
structure CompositePoliteness where
  wake : RedisWakePlanner
  robots : RedisRobotsChecker
  backoff : RedisBackoffTracker
  obeyRobotsTxt : Bool
  perDomain : List (Host × Option Bool)
  /-- What the Redis crate says of a count it cannot convert. -/
  redisText : String

/-- What Redis and the process hold. -/
structure PolitenessState where
  tracked : Host → Tracked := fun _ => ⟨.absent, false⟩
  robots : RobotsState := {}

namespace PolitenessState

/-- Hosts are dropped from `hosts_with_failure_state` and bodies from the process. -/
def drop (S : PolitenessState) (forgotten evicted : Host → Bool) : PolitenessState where
  tracked h := if forgotten h then { S.tracked h with cached := false } else S.tracked h
  robots := { S.robots with inProcess := fun h => if evicted h then none else S.robots.inProcess h }

def setTracked (S : PolitenessState) (host : Host) (t : Tracked) : PolitenessState :=
  { S with tracked := Function.update S.tracked host t }

end PolitenessState

/-- What a worker does after a visit's check, if that allows it. -/
inductive PoliteOutcome
  | nothing
  | fetched (now : Int)
  | failed (kind : FailureKind) (retryAfter : Option Duration) (now : Int)
deriving DecidableEq

/-- A check and what follows it, with what the caches lost since the visit before. -/
structure PoliteVisit where
  forgotten : Host → Bool
  evicted : Host → Bool
  url : CanonicalUrl
  checkedAt : UInt64
  outcome : PoliteOutcome

structure PoliteReply where
  decision : Except Error PoliteDecision
  plan : Option (Except Error NextWake)
deriving DecidableEq

namespace CompositePoliteness

variable (P : CompositePoliteness)

def fail (e : PolitenessError) : Error := e.toError P.redisText

/-- mirrors crates/crawlrs-politeness/src/composite.rs:195-201 -/
def effectiveObeyRobots (host : Host) : Bool :=
  ((P.perDomain.lookup host).bind id).getD P.obeyRobotsTxt

/-- mirrors crates/crawlrs-politeness/src/composite.rs:207-231 -/
def check (url : CanonicalUrl) (nowMs : UInt64) (S : PolitenessState) :
    Except Error PoliteDecision × PolitenessState :=
  match url.host with
  | none => (.error (P.fail (.noHost url.asStr)), S)
  | some host =>
    match P.backoff.isOpen host nowMs (S.tracked host) with
    | (.error e, t) => (.error (P.fail e), S.setTracked host t)
    | (.ok true, t) => (.ok (.disallow .circuit), S.setTracked host t)
    | (.ok false, t) =>
      if P.effectiveObeyRobots host then
        match P.robots.allowed url S.robots with
        | (.error e, robots) => (.error e, { S.setTracked host t with robots })
        | (.ok false, robots) => (.ok (.disallow .robots), { S.setTracked host t with robots })
        | (.ok true, robots) => (.ok .allow, { S.setTracked host t with robots })
      else (.ok .allow, S.setTracked host t)

/-- mirrors crates/crawlrs-politeness/src/composite.rs:233-245 -/
def recordFetch (url : CanonicalUrl) (now : Int) (S : PolitenessState) :
    Except Error NextWake × PolitenessState :=
  match url.host with
  | none => (.error (P.fail (.noHost url.asStr)), S)
  | some host =>
    match P.backoff.resetOnSuccess host (S.tracked host) with
    | (.error e, t) => (.error (P.fail e), S.setTracked host t)
    | (.ok (), t) => (P.wake.recordFetch host now, S.setTracked host t)

/-- mirrors crates/crawlrs-politeness/src/composite.rs:247-255 -/
def recordFailure (url : CanonicalUrl) (kind : FailureKind) (retryAfter : Option Duration)
    (now : Int) (S : PolitenessState) : Except Error NextWake × PolitenessState :=
  match url.host with
  | none => (.error (P.fail (.noHost url.asStr)), S)
  | some host =>
    let (plan, t) := P.backoff.recordFailure url kind retryAfter now (S.tracked host)
    (plan.mapError P.fail, S.setTracked host t)

/-- One delivery's calls; only an allowed one is fetched.
mirrors crates/crawlrs-runtime/src/worker.rs:370-404,449-498 -/
def visit (S : PolitenessState) (v : PoliteVisit) : PolitenessState × PoliteReply :=
  let (decision, S) := P.check v.url v.checkedAt (S.drop v.forgotten v.evicted)
  match decision, v.outcome with
  | .ok .allow, .fetched now =>
    let (plan, S) := P.recordFetch v.url now S
    (S, ⟨decision, some plan⟩)
  | .ok .allow, .failed kind retryAfter now =>
    let (plan, S) := P.recordFailure v.url kind retryAfter now S
    (S, ⟨decision, some plan⟩)
  | _, _ => (S, ⟨decision, none⟩)

end CompositePoliteness

/-! ## The gate of a host -/

structure HostGate where
  failures : HostState := .absent
  body : Option Bytes := none

namespace CompositePoliteness

variable (P : CompositePoliteness)

/-- The robots.txt of a host that was loaded, or else its load under the scheme of the URL. -/
def gateBody (host : Host) (g : HostGate) (url : CanonicalUrl) : Except String Bytes :=
  match g.body with
  | some body => .ok body
  | none => P.robots.robots.robotsAt url.url.scheme host

def gateCheck (host : Host) (g : HostGate) (url : CanonicalUrl) (nowMs : UInt64) :
    Except Error PoliteDecision × HostGate :=
  match (P.backoff.isOpen host nowMs ⟨g.failures, false⟩).1 with
  | .error e => (.error (P.fail e), g)
  | .ok true => (.ok (.disallow .circuit), g)
  | .ok false =>
    if P.effectiveObeyRobots host then
      match P.gateBody host g url with
      | .error message => (.error (.politeness ("robots: " ++ message)), g)
      | .ok body =>
        (.ok (if P.robots.robots.evaluateRules body P.robots.userAgent url.asStr then .allow
          else .disallow .robots), { g with body := some body })
    else (.ok .allow, g)

/-- A visit of a host by its gate: every success forgets the failures. -/
def gate (g : HostGate) (v : PoliteVisit) : HostGate × PoliteReply :=
  match v.url.host with
  | none => (g, ⟨.error (P.fail (.noHost v.url.asStr)), none⟩)
  | some host =>
    let (decision, g) := P.gateCheck host g v.url v.checkedAt
    match decision, v.outcome with
    | .ok .allow, .fetched now =>
      ({ g with failures := .absent }, ⟨decision, some (P.wake.recordFetch host now)⟩)
    | .ok .allow, .failed kind retryAfter now =>
      let (plan, t) := P.backoff.recordFailure v.url kind retryAfter now ⟨g.failures, false⟩
      ({ g with failures := t.redis }, ⟨decision, some (plan.mapError P.fail)⟩)
    | _, _ => (g, ⟨decision, none⟩)

end CompositePoliteness

/-- The state stands for these gates. A hash without a count is empty. -/
structure PolitenessState.Shows (P : CompositePoliteness) (S : PolitenessState)
    (G : Host → HostGate) : Prop where
  failures : ∀ host, (S.tracked host).redis = (G host).failures
  tidy : ∀ host, (G host).failures.Tidy
  bodies : (P.robots.robots.tiers S.robots).Holds fun host => (G host).body

namespace PolitenessState

variable {P : CompositePoliteness} {S : PolitenessState} {G : Host → HostGate}

theorem shows_fresh (P : CompositePoliteness) : ({} : PolitenessState).Shows P fun _ => {} :=
  ⟨fun _ => rfl, fun _ => Or.inr rfl, rfl, fun _ _ h => by cases h⟩

theorem Shows.drop (h : S.Shows P G) (forgotten evicted : Host → Bool) :
    (S.drop forgotten evicted).Shows P G := by
  refine ⟨fun host => ?_, h.tidy, h.bodies.evict evicted⟩
  rw [← h.failures host, PolitenessState.drop]
  dsimp only
  split <;> rfl

theorem Shows.setTracked (h : S.Shows P G) (host : Host) {t : Tracked} (ht : t.redis.Tidy) :
    (S.setTracked host t).Shows P
      (Function.update G host { G host with failures := t.redis }) := by
  refine ⟨fun x => ?_, fun x => ?_, ?_⟩
  · by_cases hx : x = host
    · subst hx
      simp [PolitenessState.setTracked]
    · simp [PolitenessState.setTracked, hx, h.failures]
  · by_cases hx : x = host
    · subst hx
      simpa using ht
    · simpa [hx] using h.tidy x
  · have hbody : (fun x => (Function.update G host { G host with failures := t.redis } x).body) =
        fun x => (G x).body := by
      funext x
      by_cases hx : x = host
      · subst hx
        simp
      · simp [hx]
    rw [hbody]
    exact h.bodies

/-- A check that read the hash and left it. -/
theorem Shows.observed (h : S.Shows P G) (host : Host) {t : Tracked}
    (ht : t.redis = (S.tracked host).redis) : (S.setTracked host t).Shows P G := by
  have heq : t.redis = (G host).failures := ht.trans (h.failures host)
  have hset := h.setTracked host (t := t) (heq ▸ h.tidy host)
  have hid : ({ G host with failures := t.redis } : HostGate) = G host := by rw [heq]
  rwa [hid, Function.update_eq_self] at hset

/-- robots.txt is read through the caches as the gate keeps it. -/
theorem Shows.allowed (h : S.Shows P G) {url : CanonicalUrl} {host : Host}
    (hu : url.host = some host) :
    (P.robots.allowed url S.robots).1 = ((P.gateBody host (G host) url).map fun body =>
        P.robots.robots.evaluateRules body P.robots.userAgent url.asStr).mapError
          (fun message => .politeness ("robots: " ++ message)) ∧
      { S with robots := (P.robots.allowed url S.robots).2 }.Shows P (Function.update G host
        { G host with body := (P.gateBody host (G host) url).toOption }) := by
  have hread := RobotsCache.tiers_bodyFor (C := P.robots.robots) hu S.robots
  have hfst := congrArg Prod.fst hread
  have hsnd := congrArg Prod.snd hread
  dsimp only at hfst hsnd
  rw [h.bodies.read_fst] at hfst
  have hstate := h.bodies.read_snd host (P.robots.robots.robotsAt url.url.scheme host)
  rw [← hsnd] at hstate
  have hbody : (P.robots.robots.bodyFor host url S.robots).1 = P.gateBody host (G host) url := by
    rw [hfst, CompositePoliteness.gateBody]
    cases (G host).body <;> rfl
  refine ⟨?_, fun x => ?_, fun x => ?_, ?_⟩
  · simp only [RedisRobotsChecker.allowed, RobotsCache.allowed, hu, hbody]
  · by_cases hx : x = host
    · subst hx
      simpa using h.failures x
    · simpa [hx] using h.failures x
  · by_cases hx : x = host
    · subst hx
      simpa using h.tidy x
    · simpa [hx] using h.tidy x
  · have hfirst : (fun x => (Function.update G host
          { G host with body := (P.gateBody host (G host) url).toOption } x).body) =
        Function.update (fun x => (G x).body) host ((G host).body.or
          (P.robots.robots.robotsAt url.url.scheme host).toOption) := by
      funext x
      by_cases hx : x = host
      · subst hx
        rw [Function.update_self, Function.update_self, CompositePoliteness.gateBody]
        cases (G x).body <;> rfl
      · simp [hx]
    rw [hfirst]
    simpa only [RedisRobotsChecker.allowed, RobotsCache.allowed, hu] using hstate

end PolitenessState

namespace RedisBackoffTracker

variable {T : RedisBackoffTracker}

theorem recordFailure_answer (url : CanonicalUrl) (kind : FailureKind)
    (serverHint : Option Duration) (now : Int) (s : Tracked) :
    (T.recordFailure url kind serverHint now s).1 =
      (T.recordFailure url kind serverHint now ⟨s.redis, false⟩).1 := by
  unfold recordFailure
  cases url.host with
  | none => rfl
  | some h =>
    cases T.assertOwned (T.policy.shardKey url) with
    | error e => rfl
    | ok u =>
      cases s.redis.hincr with
      | mk reply redis => cases reply <;> rfl

end RedisBackoffTracker

namespace CompositePoliteness

variable {P : CompositePoliteness} {S : PolitenessState} {G : Host → HostGate}
  {url : CanonicalUrl} {host : Host}

theorem gateCheck_failures (P : CompositePoliteness) (host : Host) (url : CanonicalUrl)
    (g : HostGate) (nowMs : UInt64) : (P.gateCheck host g url nowMs).2.failures = g.failures := by
  unfold gateCheck
  split
  · rfl
  · rfl
  · split
    · split <;> rfl
    · rfl

/-- The check of a visit. If it allows the fetch, the host is cached exactly if it has failed. -/
theorem check_gate (h : S.Shows P G) (hu : url.host = some host) (nowMs : UInt64) :
    (P.check url nowMs S).1 = (P.gateCheck host (G host) url nowMs).1 ∧
      (P.check url nowMs S).2.Shows P
        (Function.update G host (P.gateCheck host (G host) url nowMs).2) ∧
      ((P.check url nowMs S).1 = .ok .allow → P.backoff.Owns host ∧
        (((P.check url nowMs S).2.tracked host).cached ↔
          (G host).failures.consecutiveFailures.getD 0 ≠ 0)) := by
  have hans := @RedisBackoffTracker.isOpen_answer P.backoff host nowMs (S.tracked host)
  have hred := @RedisBackoffTracker.isOpen_redis P.backoff host nowMs (S.tracked host)
  have hcached := @RedisBackoffTracker.isOpen_cached P.backoff host nowMs (S.tracked host)
  rw [h.failures host] at hans
  simp only [check, gateCheck, hu, ← hans]
  rcases hopen : P.backoff.isOpen host nowMs (S.tracked host) with ⟨answer, t⟩
  rw [hopen] at hred hcached
  have hshows := h.observed host hred
  have hfail := h.failures host
  rcases answer with e | _ | _
  · rw [Function.update_eq_self]
    exact ⟨rfl, hshows, fun hbad => by cases hbad⟩
  · obtain ⟨hown, hc⟩ := hcached rfl
    rw [hfail] at hc
    simp only
    cases P.effectiveObeyRobots host with
    | false =>
      simp only [Bool.false_eq_true, if_false]
      rw [Function.update_eq_self]
      exact ⟨trivial, hshows, fun _ => ⟨hown, by simpa [PolitenessState.setTracked] using hc⟩⟩
    | true =>
      obtain ⟨hfst, hsnd⟩ := hshows.allowed hu
      simp only [if_true]
      rcases hr : P.robots.allowed url (S.setTracked host t).robots with ⟨answer, robots⟩
      have hr' : P.robots.allowed url S.robots = (answer, robots) := hr
      rw [hr] at hfst hsnd
      rw [hr']
      dsimp only at hfst hsnd
      cases hb : P.gateBody host (G host) url with
      | error message =>
        rw [hb] at hfst hsnd
        cases hfst
        have hnone : (G host).body = none := by
          unfold gateBody at hb
          cases hg : (G host).body with
          | none => rfl
          | some b => simp [hg] at hb
        have hid : ({ G host with body := none } : HostGate) = G host := by rw [← hnone]
        simp only [Except.toOption] at hsnd
        rw [hid] at hsnd
        exact ⟨rfl, hsnd, fun hbad => by cases hbad⟩
      | ok body =>
        rw [hb] at hfst hsnd
        simp only [Except.map, Except.mapError] at hfst
        subst hfst
        cases hev : P.robots.robots.evaluateRules body P.robots.userAgent url.asStr with
        | false => exact ⟨by simp [hev], hsnd, fun hbad => by cases hbad⟩
        | true =>
          exact ⟨by simp [hev], hsnd, fun _ => ⟨hown, by simpa [PolitenessState.setTracked] using hc⟩⟩
  · rw [Function.update_eq_self]
    exact ⟨rfl, hshows, fun hbad => by cases hbad⟩

/-- Clearing the failures of a host that was just checked. -/
theorem recordFetch_gate (h : S.Shows P G) (hu : url.host = some host) (hown : P.backoff.Owns host)
    (hc : (S.tracked host).cached ↔ (G host).failures.consecutiveFailures.getD 0 ≠ 0) (now : Int) :
    (P.recordFetch url now S).1 = P.wake.recordFetch host now ∧
      (P.recordFetch url now S).2.Shows P
        (Function.update G host { G host with failures := .absent }) := by
  simp only [recordFetch, hu, RedisBackoffTracker.resetOnSuccess]
  cases hb : (S.tracked host).cached with
  | true =>
    simp only [if_true, RedisBackoffTracker.assertOwned_of_owns hown]
    exact ⟨trivial, h.setTracked host (t := ⟨.absent, false⟩) (Or.inr rfl)⟩
  | false =>
    -- not cached, so the count is zero and the hash is empty already
    have habs : (G host).failures = .absent := by
      rcases h.tidy host with hne | habs
      · exact absurd (hc.2 hne) (by simp [hb])
      · exact habs
    have hid : ({ G host with failures := .absent } : HostGate) = G host := by rw [← habs]
    simp only [Bool.false_eq_true, if_false]
    rw [hid, Function.update_eq_self]
    exact ⟨trivial, h.observed host rfl⟩

theorem recordFailure_gate (h : S.Shows P G) (hu : url.host = some host) (kind : FailureKind)
    (retryAfter : Option Duration) (now : Int) :
    (P.recordFailure url kind retryAfter now S).1 =
        (P.backoff.recordFailure url kind retryAfter now ⟨(G host).failures, false⟩).1.mapError
          P.fail ∧
      (P.recordFailure url kind retryAfter now S).2.Shows P (Function.update G host
        { G host with failures := (P.backoff.recordFailure url kind retryAfter now
          ⟨(G host).failures, false⟩).2.redis }) := by
  simp only [recordFailure, hu]
  rw [RedisBackoffTracker.recordFailure_answer, h.failures host]
  refine ⟨rfl, ?_⟩
  rw [← h.failures host, ← RedisBackoffTracker.recordFailure_redis]
  refine h.setTracked host (RedisBackoffTracker.tidy_recordFailure ?_)
  rw [h.failures host]
  exact h.tidy host

/-- **One visit.** The caches show in nothing. -/
theorem visit_gate {v : PoliteVisit} (h : S.Shows P G) (hu : v.url.host = some host) :
    (P.visit S v).1.Shows P (Function.update G host (P.gate (G host) v).1) ∧
      (P.visit S v).2 = (P.gate (G host) v).2 := by
  obtain ⟨hans, hshows, hallow⟩ := check_gate (h.drop v.forgotten v.evicted) hu v.checkedAt
  have hfail := gateCheck_failures P host v.url (G host) v.checkedAt
  simp only [visit, gate, hu]
  rcases hcheck : P.check v.url v.checkedAt (S.drop v.forgotten v.evicted) with ⟨decision, S'⟩
  rcases hgate : P.gateCheck host (G host) v.url v.checkedAt with ⟨decision', g⟩
  rw [hcheck] at hans hshows hallow
  rw [hgate] at hans hshows hfail
  simp only at hans hshows hallow hfail
  subst hans
  have hg : Function.update G host g host = g := Function.update_self _ _ _
  rcases decision with e | _ | _
  · exact ⟨hshows, rfl⟩
  · obtain ⟨hown, hc⟩ := hallow rfl
    rw [← hfail, ← hg] at hc
    cases v.outcome with
    | nothing => exact ⟨hshows, rfl⟩
    | fetched now =>
      obtain ⟨h1, h2⟩ := recordFetch_gate hshows hu hown (by simpa using hc) now
      rw [hg, Function.update_idem] at h2
      exact ⟨h2, by simp only [h1]⟩
    | failed kind retryAfter now =>
      obtain ⟨h1, h2⟩ := recordFailure_gate hshows hu kind retryAfter now
      rw [hg] at h1 h2
      rw [Function.update_idem] at h2
      exact ⟨h2, by simp only [h1]⟩
  · exact ⟨hshows, rfl⟩

theorem visit_no_host {v : PoliteVisit} (h : S.Shows P G) (hu : v.url.host = none) (g : HostGate) :
    (P.visit S v).1.Shows P G ∧ (P.visit S v).2 = (P.gate g v).2 := by
  simp only [visit, check, gate, hu]
  exact ⟨h.drop _ _, trivial⟩

/-! ## Histories -/

/-- **Politeness by host.** In every history of visits, whatever the process's two caches lose
meanwhile, the replies to the visits of a host are those of its gate, which has seen no other visit.
No robots.txt expires in Redis during a history. -/
theorem politeness_by_host (P : CompositePoliteness) (S : PolitenessState) (G : Host → HostGate)
    (h : S.Shows P G) (visits : List PoliteVisit) (host : Host) :
    (Loop.trace P.visit S visits).filter (·.1.url.host = some host) =
      Loop.trace P.gate (G host) (visits.filter (·.url.host = some host)) := by
  -- the gates by the host of a URL; that of the URLs without one is never looked at
  have hstep : ∀ (S : PolitenessState) (K : Option Host → HostGate) (v : PoliteVisit), v ∈ visits →
      S.Shows P (fun x => K (some x)) →
      (P.visit S v).1.Shows P (fun x => (Loop.keyed (·.url.host) P.gate K v).1 (some x)) ∧
        (P.visit S v).2 = (Loop.keyed (·.url.host) P.gate K v).2 := by
    intro S K v _ hS
    cases hu : v.url.host with
    | none =>
      obtain ⟨h1, h2⟩ := visit_no_host hS hu (K none)
      exact ⟨by simpa [Loop.keyed, hu] using h1, by simp only [Loop.keyed, hu, h2]⟩
    | some y =>
      obtain ⟨h1, h2⟩ := visit_gate hS hu
      have hK : (fun x => (Loop.keyed (·.url.host) P.gate K v).1 (some x)) =
          Function.update (fun x => K (some x)) y (P.gate (K (some y)) v).1 := by
        funext x
        by_cases hx : x = y
        · subst hx
          simp [Loop.keyed, hu]
        · simp [Loop.keyed, hu, hx]
      rw [hK]
      exact ⟨h1, by simp only [Loop.keyed, hu, h2]⟩
  have hrun := @Loop.lockstep _ _ _ P.visit _ (Loop.keyed (·.url.host) P.gate)
    (fun S K => S.Shows P fun x => K (some x)) visits hstep S (fun k => (k.map G).getD {}) h
  rw [hrun.2]
  exact Loop.trace_keyed P.gate (fun v : PoliteVisit => v.url.host) _ visits (some host)

/-- One shard with a host delay of a second and a breaker that opens at the second failure. -/
def sample : CompositePoliteness where
  wake := ⟨⟨1, HostHashShardPolicy.one_shard⟩, [0], ⟨10 ^ 9, []⟩⟩
  robots := ⟨{ RobotsCache.sample with
    parse := fun text =>
      if text = "https://b.test/robots.txt" then .ok ⟨⟨text, "https", some "b.test"⟩⟩
      else RobotsCache.sample.parse text }, "bot"⟩
  backoff := { RedisBackoffTracker.sample with
    backoff := { BackoffPolicy.default with failureThreshold := 2 } }
  obeyRobotsTxt := true
  perDomain := []
  redisText := "response was of incompatible type"

/-- A fetch of `https://a.test/` that fails at a clock of `now` seconds. -/
def failingVisit (now : Nat) : PoliteVisit where
  forgotten _ := false
  evicted _ := true
  url := RobotsCache.pageA "https" "/"
  checkedAt := UInt64.ofNat (now * 1000)
  outcome := .failed .timeout none (now * 10 ^ 9)

/-- `http://a.test/` loads a robots.txt that forbids it; then `https://b.test/` is fetched, and
`https://a.test/` asked for by a process that has lost the body. -/
def mixedVisits : List PoliteVisit :=
  [{ failingVisit 1 with url := RobotsCache.pageA "http" "/" },
    { failingVisit 2 with url := UrlEntry.seedB.url, outcome := .fetched (2 * 10 ^ 9) }, failingVisit 3]

theorem politeness_by_host_sample :
    (Loop.trace sample.gate {} (mixedVisits.filter (·.url.host = some "a.test"))).map
        (·.2.decision) = [.ok (.disallow .robots), .ok (.disallow .robots)] ∧
      (Loop.trace sample.visit {} mixedVisits).filter (·.1.url.host = some "a.test") =
        Loop.trace sample.gate {} (mixedVisits.filter (·.url.host = some "a.test")) :=
  ⟨by decide +kernel, politeness_by_host sample {} (fun _ => {}) (PolitenessState.shows_fresh sample)
    mixedVisits "a.test"⟩

/-! ## The breaker -/

/-- The plans of the failures since the last recorded success, the latest first. -/
def streakStep (ws : List NextWake) (q : PoliteVisit × PoliteReply) : List NextWake :=
  match q.1.outcome, q.2.plan with
  | .fetched _, some _ => []
  | .failed _ _ _, some (.ok next) => next :: ws
  | _, _ => ws

def streak (past : List (PoliteVisit × PoliteReply)) : List NextWake := past.foldl streakStep []

theorem streak_concat (past : List (PoliteVisit × PoliteReply)) (q : PoliteVisit × PoliteReply) :
    streak (past ++ [q]) = streakStep (streak past) q := by
  rw [streak, List.foldl_append]
  rfl

end CompositePoliteness

namespace HostGate

/-- The hash counts the failures of the streak and has the window of the latest. At 2^32 of them
the count is no `u32`, and every check fails from then on. -/
structure Counts (g : HostGate) (ws : List NextWake) : Prop where
  count : g.failures.consecutiveFailures.getD 0 = ws.length
  window : g.failures.backoffUntilMs = ws.head?.map NextWake.untilMs
  bound : ws.length ≤ 2 ^ 32

end HostGate

namespace CompositePoliteness

variable {P : CompositePoliteness} {host : Host} {g : HostGate} {ws : List NextWake}

theorem failures_of_lt {r : HostState} {n : Nat} (hn : r.consecutiveFailures.getD 0 = n)
    (hlt : n < 2 ^ 32) : ∃ failures, r.failures = .ok failures ∧ (failures.getD 0).toNat = n := by
  unfold HostState.failures
  cases hc : r.consecutiveFailures with
  | none => exact ⟨none, rfl, by simpa [hc] using hn⟩
  | some m =>
    obtain rfl : m = n := by simpa [hc] using hn
    refine ⟨some (UInt32.ofNat m), if_pos hlt, ?_⟩
    rw [Option.getD_some, UInt32.toNat_ofNat', Nat.mod_eq_of_lt hlt]

/-- What the breaker says of a hash whose count is a `u32`. -/
theorem isOpen_of_counts (hown : P.backoff.Owns host) (h : g.Counts ws)
    (hfits : ws.length < 2 ^ 32) (nowMs : UInt64) :
    (P.backoff.isOpen host nowMs ⟨g.failures, false⟩).1 =
      .ok (decide (P.backoff.backoff.failureThreshold.toNat ≤ ws.length ∧
        ∃ w, ws.head? = some w ∧ nowMs < w.untilMs)) := by
  obtain ⟨failures, hf, hcount⟩ := failures_of_lt h.count hfits
  unfold RedisBackoffTracker.isOpen
  rw [RedisBackoffTracker.assertOwned_of_owns hown]
  simp only [hf, RedisBackoffTracker.opens, h.window, UInt32.lt_iff_toNat_lt, hcount]
  by_cases hlt : ws.length < P.backoff.backoff.failureThreshold.toNat
  · have hnot : ¬ P.backoff.backoff.failureThreshold.toNat ≤ ws.length := by omega
    simp only [hlt, if_true, hnot, false_and, decide_false]
  · have hle : P.backoff.backoff.failureThreshold.toNat ≤ ws.length := by omega
    simp only [hlt, if_false, hle, true_and]
    cases ws with
    | nil => simp
    | cons w ws => simp

/-- A count of 2^32 is not read. -/
theorem isOpen_of_full (hown : P.backoff.Owns host) (h : g.Counts ws) (hfull : ¬ ws.length < 2 ^ 32)
    (nowMs : UInt64) : (P.backoff.isOpen host nowMs ⟨g.failures, false⟩).1 = .error .redis := by
  have hf : g.failures.failures = .error .redis := by
    have hcount := h.count
    cases hc : g.failures.consecutiveFailures with
    | none =>
      rw [hc, Option.getD_none] at hcount
      omega
    | some m =>
      rw [hc, Option.getD_some] at hcount
      simp only [HostState.failures, hc, hcount, if_neg hfull]
  unfold RedisBackoffTracker.isOpen
  rw [RedisBackoffTracker.assertOwned_of_owns hown]
  simp only [hf]

variable {v : PoliteVisit}

/-- A failure is counted. -/
theorem recordFailure_of_counts (hu : v.url.host = some host) (hown : P.backoff.Owns host)
    (h : g.Counts ws) (hfits : ws.length < 2 ^ 32) (kind : FailureKind)
    (retryAfter : Option Duration) (now : Int) {answer : Except PolitenessError NextWake}
    {t : Tracked}
    (hr : P.backoff.recordFailure v.url kind retryAfter now ⟨g.failures, false⟩ = (answer, t)) :
    ∃ next, answer = .ok next ∧ ({ g with failures := t.redis } : HostGate).Counts (next :: ws) := by
  have hshard : P.backoff.policy.shardKey v.url ∈ P.backoff.ownedShards := by
    simpa [HostHashShardPolicy.shardKey, hu, RedisBackoffTracker.Owns] using hown
  have hsmall : ¬ 2 ^ 63 ≤ ws.length + 1 := by omega
  simp only [RedisBackoffTracker.recordFailure, hu, HostState.hincr, h.count, if_neg hsmall,
    RedisBackoffTracker.assertOwned_of_owns hshard, Prod.mk.injEq] at hr
  obtain ⟨rfl, rfl⟩ := hr
  exact ⟨_, rfl, rfl, rfl, hfits⟩

/-- **One visit.** The hash keeps up with the streak. -/
theorem counts_gate (hu : v.url.host = some host) (hown : P.backoff.Owns host)
    (h : g.Counts ws) : (P.gate g v).1.Counts (streakStep ws (v, (P.gate g v).2)) := by
  by_cases hfits : ws.length < 2 ^ 32
  · have hfail := gateCheck_failures P host v.url g v.checkedAt
    simp only [gate, hu, streakStep]
    rcases hcheck : P.gateCheck host g v.url v.checkedAt with ⟨decision, g'⟩
    rw [hcheck] at hfail
    have hkeep : g'.Counts ws :=
      ⟨by rw [hfail, h.count], by rw [hfail, h.window], h.bound⟩
    rcases decision with e | _ | reason
    · cases hout : v.outcome <;> exact hkeep
    · cases hout : v.outcome with
      | nothing => exact hkeep
      | fetched now => exact ⟨rfl, rfl, by simp⟩
      | failed kind retryAfter now =>
        rcases hr : P.backoff.recordFailure v.url kind retryAfter now ⟨g'.failures, false⟩ with
          ⟨answer, t⟩
        obtain ⟨next, rfl, hc⟩ := recordFailure_of_counts hu hown hkeep hfits kind retryAfter now hr
        simpa only [hr, Except.mapError] using hc
    · cases hout : v.outcome <;> exact hkeep
  · simp only [gate, hu, gateCheck, isOpen_of_full hown h hfits, streakStep]
    cases hout : v.outcome <;> exact h

/-- A run of the gate keeps up with its streak. -/
theorem counts_after (hown : P.backoff.Owns host) (hfresh : g.failures = .absent)
    {vs : List PoliteVisit} (hvs : ∀ v ∈ vs, v.url.host = some host) :
    (Loop.after P.gate g vs).Counts (streak (Loop.trace P.gate g vs)) := by
  induction vs using List.reverseRecOn with
  | nil =>
    rw [Loop.after_nil]
    exact ⟨by rw [hfresh]; rfl, by rw [hfresh]; rfl, by simp [streak]⟩
  | append_singleton vs v ih =>
    have ih := ih fun u hu => hvs u (List.mem_append_left _ hu)
    rw [Loop.after_append, Loop.trace_append, Loop.trace_cons, Loop.trace_nil, streak_concat]
    exact counts_gate (hvs v (by simp)) hown ih

/-- Only the breaker answers with `Circuit`. -/
theorem gate_circuit (hu : v.url.host = some host) (g : HostGate) :
    (P.gate g v).2.decision = .ok (.disallow .circuit) ↔
      (P.backoff.isOpen host v.checkedAt ⟨g.failures, false⟩).1 = .ok true := by
  have hdecision : (P.gate g v).2.decision = (P.gateCheck host g v.url v.checkedAt).1 := by
    simp only [gate, hu]
    rcases P.gateCheck host g v.url v.checkedAt with ⟨decision, g'⟩
    rcases decision with e | _ | reason
    · rfl
    · cases v.outcome <;> rfl
    · rfl
  rw [hdecision, gateCheck]
  rcases (P.backoff.isOpen host v.checkedAt ⟨g.failures, false⟩).1 with e | _ | _
  · simp
  · cases P.effectiveObeyRobots host with
    | false => simp
    | true =>
      cases P.gateBody host g v.url with
      | error message => simp
      | ok body =>
        simp only [if_true]
        split <;> simp
  · simp

theorem reply_after {S : PolitenessState} {G : Host → HostGate} (h : S.Shows P G)
    (visits : List PoliteVisit) (hu : v.url.host = some host) :
    (P.visit (Loop.after P.visit S visits) v).2 =
      (P.gate (Loop.after P.gate (G host) (visits.filter (·.url.host = some host))) v).2 := by
  have hrun := politeness_by_host P S G h (visits ++ [v]) host
  rw [Loop.trace_append, List.filter_append, List.filter_append, Loop.trace_append,
    politeness_by_host P S G h visits host] at hrun
  have hlast := List.append_cancel_left hrun
  simp only [Loop.trace_cons, Loop.trace_nil, hu, decide_true, List.filter_cons_of_pos,
    List.filter_nil, List.cons.injEq, Prod.mk.injEq, true_and, and_true] at hlast
  exact hlast

/-- **When the circuit is open.** A visit is turned away by the breaker exactly if the host's
failures since its last recorded success have reached the threshold, and the window of the latest
has not passed; no other visit has a say. -/
theorem circuit_iff (P : CompositePoliteness) (S : PolitenessState) (G : Host → HostGate)
    (h : S.Shows P G) (host : Host) (hown : P.backoff.Owns host)
    (hfresh : (G host).failures = .absent) (visits : List PoliteVisit) (v : PoliteVisit)
    (hu : v.url.host = some host)
    (hlen : (streak ((Loop.trace P.visit S visits).filter (·.1.url.host = some host))).length + 1 <
      2 ^ 32) :
    (P.visit (Loop.after P.visit S visits) v).2.decision = .ok (.disallow .circuit) ↔
      P.backoff.backoff.failureThreshold.toNat ≤
          (streak ((Loop.trace P.visit S visits).filter (·.1.url.host = some host))).length ∧
        ∃ w, (streak ((Loop.trace P.visit S visits).filter
          (·.1.url.host = some host))).head? = some w ∧ v.checkedAt < w.untilMs := by
  rw [politeness_by_host P S G h visits host] at hlen ⊢
  have hvs : ∀ u ∈ visits.filter (·.url.host = some host), u.url.host = some host := by
    intro u hu
    simpa using (List.mem_filter.1 hu).2
  rw [reply_after h visits hu, gate_circuit hu,
    isOpen_of_counts hown (counts_after hown hfresh hvs) (by omega)]
  simp

theorem circuit_iff_sample :
    (sample.visit (Loop.after sample.visit {} [failingVisit 1, failingVisit 2])
        (failingVisit 3)).2.decision = .ok (.disallow .circuit) ↔
      sample.backoff.backoff.failureThreshold.toNat ≤
          (streak ((Loop.trace sample.visit {} [failingVisit 1, failingVisit 2]).filter
            (·.1.url.host = some "a.test"))).length ∧
        ∃ w, (streak ((Loop.trace sample.visit {} [failingVisit 1, failingVisit 2]).filter
          (·.1.url.host = some "a.test"))).head? = some w ∧ (failingVisit 3).checkedAt < w.untilMs :=
  circuit_iff sample {} (fun _ => {}) (PolitenessState.shows_fresh sample) "a.test"
    (by unfold RedisBackoffTracker.Owns; decide +kernel) rfl _ _ rfl (by decide +kernel)

end CompositePoliteness

end Crawlrs
