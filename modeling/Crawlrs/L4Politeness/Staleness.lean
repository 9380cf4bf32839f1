import Crawlrs.Core.Duration
import Crawlrs.L4Politeness.Robots

/-!
# How old a robots.txt may be (`crawlrs-politeness/src/robots.rs`)

The two tiers of `Robots` with their clocks, for any number of processes over one Redis.
An entry of a process lives for the configured ttl from its insertion, one of Redis for
`jittered_ttl` from its write. A hit of Redis inserts the body into the process anew, and
nothing remembers when it was fetched; the model does, as `fetchedAt`.

A check is one instant, in nanoseconds: what it reads, fetches and writes happens then.
Entries of either tier may also go early.

* `jitteredTtl_le`: the life of a Redis entry is at most 1.2 ttl.
* `bodyFor_age`: how old a body is by where it comes from.
* `staleness_iff`: when every body is at most 1.2 ttl old, and that none is 2.2 ttl old.
-/
namespace Crawlrs

/-- A cache with its ttl. What the network answers may change over time, and `hostHash` is
`DefaultHasher` of the host.
mirrors crates/crawlrs-politeness/src/robots.rs:77-111 -/
structure TimedRobots where
  cache : RobotsCache
  fetcherAt : Nat → FetchRequest → Except Error FetchResponse
  ttl : Duration
  hostHash : Host → UInt64

/-- An entry of a process. -/
structure LocalEntry where
  body : Bytes
  fetchedAt : Nat
  insertedAt : Nat

/-- A Redis hash under `EXPIRE`. -/
structure RedisEntry where
  hash : RobotsHash
  fetchedAt : Nat
  expiresAt : Nat

/-- The processes by number. -/
structure SharedRobots where
  inProcess : Nat → Host → Option LocalEntry := fun _ _ => none
  redis : String → Option RedisEntry := fun _ => none

/-- Where the body of a decision came from. -/
inductive BodySource
  | inProcess (insertedAt : Nat)
  | redis
  | network
deriving DecidableEq

/-- The body of one decision: when it was used, when it was fetched, and from where it came. -/
structure BodyUse where
  now : Nat
  fetchedAt : Nat
  source : BodySource
deriving DecidableEq

/-- `TTL_JITTER_PCT`. -/
def ttlJitterPct : Int := 20

namespace TimedRobots

variable (C : TimedRobots)

/-- In seconds. `as i64` and the product wrap in release builds.
mirrors crates/crawlrs-politeness/src/robots.rs:43-55 -/
def jitteredTtl (host : Host) : Nat :=
  let bucket : Int := (C.hostHash host % 41).toNat
  let jitterPct := bucket - ttlJitterPct
  let secs : Int := (UInt64.ofNat C.ttl.asSecs).toInt64.toInt
  let scaled := ((secs * (100 + jitterPct)).bmod (2 ^ 64)).tdiv 100
  (max scaled 1).toNat

/-- mirrors crates/crawlrs-politeness/src/robots.rs:218-249 -/
def fetchBody (now : Nat) (url : CanonicalUrl) : Option Bytes :=
  ({ C.cache with fetcher := C.fetcherAt now } : RobotsCache).fetchBody url

def key (sourceUrl : CanonicalUrl) (host : Host) : String :=
  robotsKey C.cache.runId (C.cache.policy.shardKey sourceUrl) host

/-- `in_process.get(host)`. -/
def getLocal (p now : Nat) (host : Host) (s : SharedRobots) : Option LocalEntry :=
  (s.inProcess p host).filter fun e => now < e.insertedAt + C.ttl.nanos

/-- `in_process.insert(host, body)`. -/
def insertLocal (p now : Nat) (host : Host) (body : Bytes) (fetchedAt : Nat) (s : SharedRobots) :
    SharedRobots :=
  let entries := Function.update (s.inProcess p) host (some ⟨body, fetchedAt, now⟩)
  { s with inProcess := Function.update s.inProcess p entries }

/-- A body with the time of its fetch.
mirrors crates/crawlrs-politeness/src/robots.rs:174-210 -/
def readCache (now : Nat) (host : Host) (sourceUrl : CanonicalUrl) (s : SharedRobots) :
    Option (Bytes × Nat) :=
  match (s.redis (C.key sourceUrl host)).filter fun e => now ≤ e.expiresAt with
  | none => none
  | some e => e.hash.read.map (·, e.fetchedAt)

/-- mirrors crates/crawlrs-politeness/src/robots.rs:252-288 -/
def writeCache (now : Nat) (host : Host) (sourceUrl : CanonicalUrl) (body : Option Bytes)
    (s : SharedRobots) : SharedRobots :=
  let hash : RobotsHash := match body with
    | some b => ⟨some "ok", some b⟩
    | none => ⟨some "absent", none⟩
  let entry : RedisEntry := ⟨hash, now, now + C.jitteredTtl host * 10 ^ 9⟩
  { s with redis := Function.update s.redis (C.key sourceUrl host) (some entry) }

/-- mirrors crates/crawlrs-politeness/src/robots.rs:212-250 -/
def fetchAndCache (now : Nat) (host : Host) (sourceUrl : CanonicalUrl) (s : SharedRobots) :
    Except String Bytes × SharedRobots :=
  let text := RobotsCache.robotsUrl sourceUrl.url.scheme host
  match C.cache.parse text with
  | .error e => (.error ("invalid robots url " ++ text ++ ": " ++ e), s)
  | .ok url =>
    let body := C.fetchBody now url
    (.ok (body.getD []), C.writeCache now host sourceUrl body s)

/-- mirrors crates/crawlrs-politeness/src/robots.rs:158-172 -/
def bodyFor (p now : Nat) (host : Host) (sourceUrl : CanonicalUrl) (s : SharedRobots) :
    Except String (Bytes × BodyUse) × SharedRobots :=
  match C.getLocal p now host s with
  | some e => (.ok (e.body, ⟨now, e.fetchedAt, .inProcess e.insertedAt⟩), s)
  | none =>
    match C.readCache now host sourceUrl s with
    | some (body, fetchedAt) =>
      (.ok (body, ⟨now, fetchedAt, .redis⟩), insertLocal p now host body fetchedAt s)
    | none =>
      match C.fetchAndCache now host sourceUrl s with
      | (.error e, s) => (.error e, s)
      | (.ok body, s) => (.ok (body, ⟨now, now, .network⟩), insertLocal p now host body now s)

/-- The decision, and the body it used if it used one.
mirrors crates/crawlrs-politeness/src/robots.rs:142-150 -/
def allowed (p now : Nat) (url : CanonicalUrl) (userAgent : String) (s : SharedRobots) :
    Except String Bool × Option BodyUse × SharedRobots :=
  match url.host with
  | none => (.ok true, none, s)
  | some host =>
    match C.bodyFor p now host url s with
    | (.error e, s) => (.error e, none, s)
    | (.ok (body, use), s) => (.ok (C.cache.evaluateRules body userAgent url.asStr), some use, s)

end TimedRobots

/-! ## Runs -/

inductive RobotsEvent
  | check (p now : Nat) (url : CanonicalUrl) (userAgent : String)
  | evict (p : Nat) (drop : Host → Bool)
  | evictRedis (drop : String → Bool)

/-- The clock reading of a check. -/
def RobotsEvent.now? : RobotsEvent → Option Nat
  | .check _ now _ _ => some now
  | _ => none

namespace TimedRobots

def step (C : TimedRobots) (s : SharedRobots) : RobotsEvent → Option BodyUse × SharedRobots
  | .check p now url userAgent => (C.allowed p now url userAgent s).2
  | .evict p drop =>
    let entries := fun h => if drop h then none else s.inProcess p h
    (none, { s with inProcess := Function.update s.inProcess p entries })
  | .evictRedis drop => (none, { s with redis := fun k => if drop k then none else s.redis k })

/-- The bodies used along a run. -/
def uses (C : TimedRobots) : List RobotsEvent → SharedRobots → List BodyUse
  | [], _ => []
  | e :: es, s => (C.step s e).1.toList ++ C.uses es (C.step s e).2

/-- The tiers after a run. -/
def after (C : TimedRobots) (es : List RobotsEvent) (s : SharedRobots) : SharedRobots :=
  es.foldl (fun s e => (C.step s e).2) s

/-- The age of the body a check takes over: its process does not have it, and Redis does. -/
def takenOver? (C : TimedRobots) (s : SharedRobots) : RobotsEvent → Option Nat
  | .check p now url _ => url.host.bind fun host =>
    match C.getLocal p now host s with
    | some _ => none
    | none => (C.readCache now host url s).map fun entry => now - entry.2
  | _ => none

/-- A body is taken over at an age that leaves room for the time a process keeps it, less than a ttl:
at most a fifth of a ttl, and a nanosecond. -/
def TakesOverEarly (C : TimedRobots) (s : SharedRobots) (e : RobotsEvent) : Prop :=
  ∀ age ∈ C.takenOver? s e, 5 * age ≤ C.ttl.nanos + 5

/-- Every check of a run that takes a body over does so early. -/
def Prompt (C : TimedRobots) : List RobotsEvent → SharedRobots → Prop
  | [], _ => True
  | e :: es, s => C.TakesOverEarly s e ∧ C.Prompt es (C.step s e).2

instance (C : TimedRobots) (s : SharedRobots) (e : RobotsEvent) : Decidable (C.TakesOverEarly s e) :=
  inferInstanceAs (Decidable (∀ age ∈ C.takenOver? s e, 5 * age ≤ C.ttl.nanos + 5))

instance (C : TimedRobots) : (es : List RobotsEvent) → (s : SharedRobots) → Decidable (C.Prompt es s)
  | [], _ => inferInstanceAs (Decidable True)
  | e :: es, s =>
    have : Decidable (C.Prompt es (C.step s e).2) := instDecidablePrompt C es (C.step s e).2
    inferInstanceAs (Decidable (C.TakesOverEarly s e ∧ C.Prompt es (C.step s e).2))

end TimedRobots

/-! ## How old a body is -/

/-- The age of a body by its source: fresh from the network, at most 1.2 ttl from Redis, and from
the process less than a ttl more than it was when it came there, a fifth of `lim`. -/
def BodyUse.Sound (ttl : Duration) (lim : Nat) (u : BodyUse) : Prop :=
  u.fetchedAt ≤ u.now ∧
    match u.source with
    | .network => u.fetchedAt = u.now
    | .redis => 5 * (u.now - u.fetchedAt) ≤ 6 * ttl.nanos
    | .inProcess t => u.fetchedAt ≤ t ∧ t ≤ u.now ∧ u.now < t + ttl.nanos ∧
        5 * (t - u.fetchedAt) ≤ lim

/-- A process adds less than a ttl to the age a body had when it came there. -/
theorem BodyUse.Sound.age_le {ttl : Duration} {lim : Nat} {u : BodyUse} (hs : u.Sound ttl lim)
    (hlim : ttl.nanos + 5 ≤ lim) : 5 * (u.now - u.fetchedAt) ≤ 5 * ttl.nanos - 5 + lim := by
  unfold BodyUse.Sound at hs
  cases hsrc : u.source with
  | network =>
    rw [hsrc] at hs
    have hnow : u.fetchedAt = u.now := hs.2
    omega
  | redis =>
    rw [hsrc] at hs
    have hage : 5 * (u.now - u.fetchedAt) ≤ 6 * ttl.nanos := hs.2
    omega
  | inProcess t =>
    rw [hsrc] at hs
    obtain ⟨-, hft, htn, hlive, hage⟩ := hs
    omega

/-- The two tiers at a time: no entry is from the future, one of Redis is at most 1.2 ttl old when it
goes, and one of a process was at most a fifth of `lim` old when it came. -/
structure TimedRobots.Aged (C : TimedRobots) (lim now : Nat) (s : SharedRobots) : Prop where
  redis : ∀ k e, s.redis k = some e →
    e.fetchedAt ≤ now ∧ 5 * (e.expiresAt - e.fetchedAt) ≤ 6 * C.ttl.nanos
  inProcess : ∀ p h e, s.inProcess p h = some e →
    e.fetchedAt ≤ e.insertedAt ∧ e.insertedAt ≤ now ∧ 5 * (e.insertedAt - e.fetchedAt) ≤ lim

namespace TimedRobots

variable {C : TimedRobots}

/-- A whole number of seconds scaled by at most 120 percent, wrapped or not. -/
theorem scaled_le {secs f : Int} {n : Nat} (hn : 1 ≤ n) (hlt : n < 2 ^ 64)
    (hsecs : secs = if n < 2 ^ 63 then (n : Int) else n - 2 ^ 64) (h1 : 80 ≤ f) (h2 : f ≤ 120) :
    5 * max (((secs * f).bmod (2 ^ 64)).tdiv 100) 1 ≤ 6 * n := by
  have hub : (secs * f).bmod (2 ^ 64) < 2 ^ 63 := Int.bmod_lt (by decide)
  by_cases hneg : (secs * f).bmod (2 ^ 64) ≤ 0
  · have hz := Int.tdiv_nonneg (a := -(secs * f).bmod (2 ^ 64)) (b := 100) (by omega) (by decide)
    rw [Int.neg_tdiv] at hz
    omega
  · rw [Int.tdiv_eq_ediv_of_nonneg (by omega)]
    by_cases hsmall : n < 2 ^ 63
    · rw [if_pos hsmall] at hsecs
      have hpos : 0 ≤ secs := by omega
      have hle : secs * f ≤ secs * 120 := Int.mul_le_mul_of_nonneg_left h2 hpos
      have hge : 0 ≤ secs * f := Int.mul_nonneg hpos (by omega)
      by_cases hfit : secs * f < 2 ^ 63
      · have hb : (secs * f).bmod (2 ^ 64) = secs * f :=
          Int.bmod_eq_of_le (by omega) (by omega)
        rw [hb]
        omega
      · omega
    · omega

theorem jitteredTtl_le (httl : 10 ^ 9 ≤ C.ttl.nanos) (host : Host) :
    5 * (C.jitteredTtl host * 10 ^ 9) ≤ 6 * C.ttl.nanos := by
  have hlt : C.ttl.asSecs < 2 ^ 64 := by
    have := C.ttl.fits
    unfold Duration.asSecs
    omega
  have hpos : 1 ≤ C.ttl.asSecs := by
    unfold Duration.asSecs
    omega
  have hdiv : C.ttl.asSecs * 10 ^ 9 ≤ C.ttl.nanos := Nat.div_mul_le_self _ _
  have hbucket : (C.hostHash host % 41).toNat < 41 := by
    rw [UInt64.toNat_mod]
    exact Nat.mod_lt _ (by decide)
  have hsecs : (UInt64.ofNat C.ttl.asSecs).toInt64.toInt =
      if C.ttl.asSecs < 2 ^ 63 then (C.ttl.asSecs : Int) else C.ttl.asSecs - 2 ^ 64 := by
    show (UInt64.ofNat C.ttl.asSecs).toBitVec.toInt = _
    rw [BitVec.toInt_eq_toNat_bmod]
    show ((UInt64.ofNat C.ttl.asSecs).toNat : Int).bmod (2 ^ 64) = _
    rw [UInt64.toNat_ofNat', Nat.mod_eq_of_lt hlt, Int.bmod_def]
    split <;> split <;> omega
  have hle := scaled_le hpos hlt hsecs (f := 100 + (((C.hostHash host % 41).toNat : Int) - ttlJitterPct))
    (by simp only [ttlJitterPct]; omega) (by simp only [ttlJitterPct]; omega)
  simp only [jitteredTtl]
  omega

namespace Aged

variable {lim now now' : Nat} {s : SharedRobots}

theorem mono (h : C.Aged lim now s) (hle : now ≤ now') : C.Aged lim now' s := by
  refine ⟨fun k e he => ?_, fun p x e he => ?_⟩
  · have := h.redis k e he
    omega
  · have := h.inProcess p x e he
    omega

theorem insertLocal (h : C.Aged lim now s) (p : Nat) (host : Host) (body : Bytes) {fetchedAt : Nat}
    (hf : fetchedAt ≤ now) (hage : 5 * (now - fetchedAt) ≤ lim) :
    C.Aged lim now (insertLocal p now host body fetchedAt s) := by
  refine ⟨h.redis, fun q x e he => ?_⟩
  by_cases hq : q = p
  · subst hq
    by_cases hx : x = host
    · subst hx
      simp only [TimedRobots.insertLocal, Function.update_self, Option.some.injEq] at he
      subst he
      exact ⟨hf, Nat.le_refl _, hage⟩
    · simp only [TimedRobots.insertLocal, Function.update_self, ne_eq, hx, not_false_eq_true,
        Function.update_of_ne] at he
      exact h.inProcess q x e he
  · simp only [TimedRobots.insertLocal, ne_eq, hq, not_false_eq_true, Function.update_of_ne] at he
    exact h.inProcess q x e he

theorem writeCache (h : C.Aged lim now s) (httl : 10 ^ 9 ≤ C.ttl.nanos) (host : Host)
    (url : CanonicalUrl) (body : Option Bytes) : C.Aged lim now (C.writeCache now host url body s) := by
  refine ⟨fun k e he => ?_, h.inProcess⟩
  by_cases hk : k = C.key url host
  · subst hk
    simp only [TimedRobots.writeCache, Function.update_self, Option.some.injEq] at he
    subst he
    refine ⟨Nat.le_refl _, ?_⟩
    show 5 * (now + C.jitteredTtl host * 10 ^ 9 - now) ≤ _
    rw [Nat.add_sub_cancel_left]
    exact jitteredTtl_le httl host
  · simp only [TimedRobots.writeCache, ne_eq, hk, not_false_eq_true, Function.update_of_ne] at he
    exact h.redis k e he

theorem readCache_age (h : C.Aged lim now s) {host : Host} {url : CanonicalUrl} {body : Bytes}
    {fetchedAt : Nat} (hr : C.readCache now host url s = some (body, fetchedAt)) :
    fetchedAt ≤ now ∧ 5 * (now - fetchedAt) ≤ 6 * C.ttl.nanos := by
  unfold readCache at hr
  split at hr
  · cases hr
  · rename_i e hf
    obtain ⟨he, hlive⟩ := Option.filter_eq_some_iff.1 hf
    obtain ⟨b, -, hb⟩ := Option.map_eq_some_iff.1 hr
    cases hb
    have hlive' : now ≤ e.expiresAt := by simpa using hlive
    have hredis := h.redis _ e he
    omega

end Aged

/-- **One check.** The age of the body it uses is bounded by its source, and the tiers stay aged if
what it takes over is. -/
theorem bodyFor_age (httl : 10 ^ 9 ≤ C.ttl.nanos) {lim now : Nat} {s : SharedRobots}
    (h : C.Aged lim now s) (p : Nat) (host : Host) (url : CanonicalUrl) :
    (∀ body use, (C.bodyFor p now host url s).1 = .ok (body, use) → use.Sound C.ttl lim) ∧
      ((C.getLocal p now host s = none → ∀ entry, C.readCache now host url s = some entry →
        5 * (now - entry.2) ≤ lim) → C.Aged lim now (C.bodyFor p now host url s).2) := by
  unfold bodyFor
  cases hl : C.getLocal p now host s with
  | some e =>
    refine ⟨?_, fun _ => h⟩
    intro body use heq
    cases heq
    obtain ⟨he, hlive⟩ := Option.filter_eq_some_iff.1 hl
    have hage := h.inProcess p host e he
    have hlive' : now < e.insertedAt + C.ttl.nanos := by simpa using hlive
    exact ⟨by show e.fetchedAt ≤ now; omega, hage.1, hage.2.1, hlive', hage.2.2⟩
  | none =>
    cases hr : C.readCache now host url s with
    | some entry =>
      obtain ⟨body, fetchedAt⟩ := entry
      have hage := h.readCache_age hr
      refine ⟨?_, fun hearly => h.insertLocal p host body hage.1 (hearly rfl _ rfl)⟩
      intro b use heq
      cases heq
      exact hage
    | none =>
      simp only [fetchAndCache]
      cases C.cache.parse (RobotsCache.robotsUrl url.url.scheme host) with
      | error e =>
        refine ⟨?_, fun _ => h⟩
        intro body use heq
        cases heq
      | ok robotsUrl =>
        refine ⟨?_, fun _ =>
          (h.writeCache httl host url _).insertLocal p host _ (Nat.le_refl _) (by omega)⟩
        intro body use heq
        cases heq
        exact ⟨Nat.le_refl _, rfl⟩

/-- What a check takes over is at most 1.2 ttl old. -/
theorem takenOver?_le {lim t : Nat} {s : SharedRobots} (h : C.Aged lim t s) {e : RobotsEvent}
    (hclock : ∀ now, e.now? = some now → t ≤ now) : ∀ age ∈ C.takenOver? s e, 5 * age ≤ 6 * C.ttl.nanos := by
  intro age hage
  cases e with
  | check p now url userAgent =>
    have hnow := h.mono (hclock now rfl)
    simp only [takenOver?, Option.mem_def, Option.bind_eq_some_iff] at hage
    obtain ⟨host, -, hage⟩ := hage
    split at hage
    · cases hage
    · obtain ⟨entry, hr, rfl⟩ := Option.map_eq_some_iff.1 hage
      exact (hnow.readCache_age hr).2
  | evict p drop => cases hage
  | evictRedis drop => cases hage

theorem step_age (httl : 10 ^ 9 ≤ C.ttl.nanos) {lim t : Nat} {s : SharedRobots} (h : C.Aged lim t s)
    (e : RobotsEvent) (hclock : ∀ now, e.now? = some now → t ≤ now) :
    (∀ use, (C.step s e).1 = some use → use.Sound C.ttl lim) ∧
      ((∀ age ∈ C.takenOver? s e, 5 * age ≤ lim) → C.Aged lim (e.now?.getD t) (C.step s e).2) := by
  cases e with
  | check p now url userAgent =>
    have hnow := h.mono (hclock now rfl)
    simp only [step, allowed, RobotsEvent.now?, Option.getD_some]
    cases hhost : url.host with
    | none => exact ⟨fun use hu => (by cases hu), fun _ => hnow⟩
    | some host =>
      obtain ⟨hsound, haged⟩ := bodyFor_age httl hnow p host url
      have hearly : (∀ age ∈ C.takenOver? s (.check p now url userAgent), 5 * age ≤ lim) →
          C.getLocal p now host s = none → ∀ entry, C.readCache now host url s = some entry →
            5 * (now - entry.2) ≤ lim := by
        intro hall hl entry hr
        exact hall (now - entry.2) (by simp [takenOver?, hhost, hl, hr])
      rcases hb : C.bodyFor p now host url s with ⟨reply, s'⟩
      rw [hb] at hsound haged
      simp only [hb]
      cases reply with
      | error e => exact ⟨fun use hu => (by cases hu), fun hall => haged (hearly hall)⟩
      | ok r =>
        refine ⟨?_, fun hall => haged (hearly hall)⟩
        intro use hu
        cases hu
        exact hsound r.1 r.2 rfl
  | evict p drop =>
    refine ⟨fun use hu => (by cases hu), fun _ => ⟨h.redis, fun q x e he => ?_⟩⟩
    by_cases hq : q = p
    · subst hq
      simp only [step, Function.update_self, Option.ite_none_left_eq_some] at he
      exact h.inProcess q x e he.2
    · simp only [step, ne_eq, hq, not_false_eq_true, Function.update_of_ne] at he
      exact h.inProcess q x e he
  | evictRedis drop =>
    refine ⟨fun use hu => (by cases hu), fun _ => ⟨fun k e he => ?_, h.inProcess⟩⟩
    simp only [step, Option.ite_none_left_eq_some] at he
    exact h.redis k e he.2

theorem aged_fresh (lim : Nat) : C.Aged lim 0 {} := by
  refine ⟨fun k e h => ?_, fun p x e h => ?_⟩
  · cases h
  · cases h

end TimedRobots

/-! ## Every run -/

/-- The clock readings of the checks do not decrease. -/
def InTimeOrder (es : List RobotsEvent) : Prop := (es.filterMap RobotsEvent.now?).Pairwise (· ≤ ·)

instance (es : List RobotsEvent) : Decidable (InTimeOrder es) :=
  inferInstanceAs (Decidable ((es.filterMap RobotsEvent.now?).Pairwise (· ≤ ·)))

/-- The last clock reading of a run. -/
def lastClock (es : List RobotsEvent) : Nat := (es.filterMap RobotsEvent.now?).getLast?.getD 0

namespace InTimeOrder

variable {es pre : List RobotsEvent} {e e' : RobotsEvent}

theorem mono (h : InTimeOrder es) (hp : pre <+: es) : InTimeOrder pre :=
  List.Pairwise.sublist (hp.sublist.filterMap _) h

theorem last_le (h : InTimeOrder (es ++ [e])) (now : Nat) (hnow : e.now? = some now) :
    lastClock es ≤ now := by
  unfold InTimeOrder at h
  rw [List.filterMap_append, List.pairwise_append] at h
  unfold lastClock
  cases hl : (es.filterMap RobotsEvent.now?).getLast? with
  | none => exact Nat.zero_le _
  | some t => exact h.2.2 t (List.mem_of_getLast? hl) now (by simp [hnow])

/-- A check later than the last one. -/
theorem snoc (h : InTimeOrder (es ++ [e])) {now now' : Nat} (hnow : e.now? = some now)
    (hnow' : e'.now? = some now') (hle : now ≤ now') : InTimeOrder (es ++ [e] ++ [e']) := by
  have hall := h
  unfold InTimeOrder at hall ⊢
  rw [List.filterMap_append, List.pairwise_append] at hall
  rw [List.filterMap_append, List.pairwise_append]
  refine ⟨h, by simp [hnow'], fun a ha b hb => ?_⟩
  have hb : b = now' := by simpa [hnow'] using hb
  rw [List.filterMap_append, List.mem_append] at ha
  rcases ha with ha | ha
  · have hlast := hall.2.2 a ha now (by simp [hnow])
    omega
  · have ha : a = now := by simpa [hnow] using ha
    omega

end InTimeOrder

theorem lastClock_append (es : List RobotsEvent) (e : RobotsEvent) :
    lastClock (es ++ [e]) = e.now?.getD (lastClock es) := by
  unfold lastClock
  cases he : e.now? with
  | none => simp [he]
  | some now => simp [he]

namespace TimedRobots

variable {C : TimedRobots}

theorem after_append (es : List RobotsEvent) (e : RobotsEvent) (s : SharedRobots) :
    C.after (es ++ [e]) s = (C.step (C.after es s) e).2 := by
  simp [after]

theorem uses_append (es : List RobotsEvent) (e : RobotsEvent) (s : SharedRobots) :
    C.uses (es ++ [e]) s = C.uses es s ++ (C.step (C.after es s) e).1.toList := by
  induction es generalizing s with
  | nil => simp [uses, after]
  | cons e' es ih =>
    rw [List.cons_append, uses, uses, ih, List.append_assoc]
    rfl

theorem prompt_append {es : List RobotsEvent} {e : RobotsEvent} {s : SharedRobots} :
    C.Prompt (es ++ [e]) s ↔ C.Prompt es s ∧ C.TakesOverEarly (C.after es s) e := by
  induction es generalizing s with
  | nil => simp [Prompt, after]
  | cons e' es ih =>
    rw [List.cons_append, Prompt, Prompt, ih, and_assoc]
    rfl

theorem prompt_of_append {es post : List RobotsEvent} {s : SharedRobots} (h : C.Prompt (es ++ post) s) :
    C.Prompt es s := by
  induction es generalizing s with
  | nil => trivial
  | cons e es ih => exact ⟨h.1, ih h.2⟩

/-- The tiers along a run, by induction on the run. Without a condition on the takeovers 1.2 ttl is
what bounds them. -/
theorem after_aged (httl : 10 ^ 9 ≤ C.ttl.nanos) {lim : Nat} {es : List RobotsEvent}
    (horder : InTimeOrder es)
    (hlim : 6 * C.ttl.nanos ≤ lim ∨ C.ttl.nanos + 5 ≤ lim ∧ C.Prompt es {}) :
    C.Aged lim (lastClock es) (C.after es {}) := by
  induction es using List.reverseRecOn with
  | nil => exact aged_fresh lim
  | append_singleton es e ih =>
    have hinit : C.Aged lim (lastClock es) (C.after es {}) := by
      refine ih (horder.mono (List.prefix_append _ _)) ?_
      rcases hlim with hlim | ⟨hlim, hp⟩
      · exact Or.inl hlim
      · exact Or.inr ⟨hlim, (prompt_append.1 hp).1⟩
    rw [after_append, lastClock_append]
    refine (step_age httl hinit e horder.last_le).2 fun age hage => ?_
    rcases hlim with hlim | ⟨hlim, hp⟩
    · exact Nat.le_trans (takenOver?_le hinit horder.last_le age hage) hlim
    · exact Nat.le_trans ((prompt_append.1 hp).2 age hage) hlim

/-- Every body of a run, also of the one check that comes next, is sound. -/
theorem uses_sound (httl : 10 ^ 9 ≤ C.ttl.nanos) {lim : Nat} {es : List RobotsEvent} (e : RobotsEvent)
    (horder : InTimeOrder (es ++ [e]))
    (hlim : 6 * C.ttl.nanos ≤ lim ∨ C.ttl.nanos + 5 ≤ lim ∧ C.Prompt es {}) :
    ∀ u ∈ C.uses (es ++ [e]) {}, u.Sound C.ttl lim := by
  induction es using List.reverseRecOn generalizing e with
  | nil =>
    intro u hu
    have hu : (C.step {} e).1 = some u := by simpa [uses] using hu
    exact (step_age httl (aged_fresh lim) e fun _ _ => Nat.zero_le _).1 u hu
  | append_singleton es e' ih =>
    intro u hu
    have hinit : InTimeOrder (es ++ [e']) := horder.mono (List.prefix_append _ _)
    rw [uses_append, List.mem_append] at hu
    rcases hu with hu | hu
    · refine ih e' hinit ?_ u hu
      rcases hlim with hlim | ⟨hlim, hp⟩
      · exact Or.inl hlim
      · exact Or.inr ⟨hlim, (prompt_append.1 hp).1⟩
    · have haged := after_aged httl hinit hlim
      exact (step_age httl haged e horder.last_le).1 u (by simpa using hu)

/-- A body taken over is still used almost a ttl later. -/
theorem used_after_takeover (httl : 10 ^ 9 ≤ C.ttl.nanos) {lim t : Nat} {s : SharedRobots}
    (h : C.Aged lim t s) {e : RobotsEvent} (hclock : ∀ now, e.now? = some now → t ≤ now) {age : Nat}
    (hage : age ∈ C.takenOver? s e) : ∃ now e' u, e.now? = some now ∧
      e'.now? = some (now + (C.ttl.nanos - 1)) ∧ (C.step (C.step s e).2 e').1 = some u ∧
        u.now - u.fetchedAt = age + (C.ttl.nanos - 1) := by
  cases e with
  | check p now url userAgent =>
    have hnow := h.mono (hclock now rfl)
    simp only [takenOver?, Option.mem_def, Option.bind_eq_some_iff] at hage
    obtain ⟨host, hhost, hage⟩ := hage
    split at hage
    · cases hage
    · rename_i hl
      obtain ⟨⟨body, fetchedAt⟩, hr, rfl⟩ := Option.map_eq_some_iff.1 hage
      have hf := (hnow.readCache_age hr).1
      have hafter : (C.step s (.check p now url userAgent)).2 =
          insertLocal p now host body fetchedAt s := by
        simp [step, allowed, hhost, bodyFor, hl, hr]
      have hlocal : C.getLocal p (now + (C.ttl.nanos - 1)) host
          (insertLocal p now host body fetchedAt s) = some ⟨body, fetchedAt, now⟩ := by
        have hlive : now + (C.ttl.nanos - 1) < now + C.ttl.nanos := by omega
        simp only [getLocal, insertLocal, Function.update_self, Option.filter_some]
        rw [if_pos (decide_eq_true hlive)]
      refine ⟨now, .check p (now + (C.ttl.nanos - 1)) url userAgent,
        ⟨now + (C.ttl.nanos - 1), fetchedAt, .inProcess now⟩, rfl, rfl, ?_, ?_⟩
      · rw [hafter]
        simp [step, allowed, hhost, bodyFor, hlocal]
      · show now + (C.ttl.nanos - 1) - fetchedAt = now - fetchedAt + (C.ttl.nanos - 1)
        omega
  | evict p drop => cases hage
  | evictRedis drop => cases hage

/-- The body of the decision is at most 1.2 ttl old. -/
def Fresh (C : TimedRobots) (u : BodyUse) : Prop := 5 * (u.now - u.fetchedAt) ≤ 6 * C.ttl.nanos

theorem fresh_of_prompt (httl : 10 ^ 9 ≤ C.ttl.nanos) {es : List RobotsEvent} (e : RobotsEvent)
    (horder : InTimeOrder (es ++ [e])) (hp : C.Prompt es {}) : ∀ u ∈ C.uses (es ++ [e]) {}, C.Fresh u := by
  intro u hu
  have hage := (uses_sound httl e horder (Or.inr ⟨Nat.le_refl _, hp⟩) u hu).age_le (Nat.le_refl _)
  unfold Fresh
  omega

/-- Whatever check comes next, at any point of the run, uses a body at most 1.2 ttl old. -/
def StaysFresh (C : TimedRobots) (es : List RobotsEvent) : Prop :=
  ∀ pre e, pre <+: es → InTimeOrder (pre ++ [e]) → ∀ u ∈ C.uses (pre ++ [e]) {}, C.Fresh u

/-- A late takeover is found out by a check almost a ttl later. -/
theorem prompt_of_staysFresh (httl : 10 ^ 9 ≤ C.ttl.nanos) {es : List RobotsEvent}
    (horder : InTimeOrder es) (h : C.StaysFresh es) : C.Prompt es {} := by
  induction es using List.reverseRecOn with
  | nil => trivial
  | append_singleton es e ih =>
    have hinit := horder.mono (List.prefix_append es [e])
    have hp : C.Prompt es {} := ih hinit fun pre e' hpre => h pre e' (hpre.trans (List.prefix_append _ _))
    refine prompt_append.2 ⟨hp, fun age hage => ?_⟩
    have haged := after_aged httl hinit (Or.inr ⟨Nat.le_refl _, hp⟩)
    obtain ⟨now, e', u, hnow, hnow', hu, hold⟩ :=
      used_after_takeover httl haged horder.last_le hage
    have hmem : u ∈ C.uses (es ++ [e] ++ [e']) {} := by
      rw [uses_append, after_append, hu]
      simp
    have hfresh := h (es ++ [e]) e' (List.prefix_refl _)
      (horder.snoc hnow hnow' (Nat.le_add_right _ _)) u hmem
    unfold Fresh at hfresh
    omega

/-- **How old a robots.txt may be.** In every run in which a process takes bodies over from Redis only
early, every body used is at most 1.2 ttl old. That is the exact condition: once a body was taken over
later, a check can come that uses an older one. In no run is a body more than 2.2 ttl old. -/
theorem staleness_iff (C : TimedRobots) (httl : 10 ^ 9 ≤ C.ttl.nanos) (es : List RobotsEvent)
    (horder : InTimeOrder es) :
    (C.Prompt es {} → ∀ u ∈ C.uses es {}, C.Fresh u) ∧ (C.Prompt es {} ↔ C.StaysFresh es) ∧
      ∀ u ∈ C.uses es {}, 5 * (u.now - u.fetchedAt) ≤ 11 * C.ttl.nanos := by
  have hstays : C.Prompt es {} → C.StaysFresh es := by
    intro hp pre e hpre hpe
    obtain ⟨post, rfl⟩ := hpre
    exact fresh_of_prompt httl e hpe (prompt_of_append hp)
  refine ⟨?_, ⟨hstays, prompt_of_staysFresh httl horder⟩, ?_⟩
  · intro hp u hu
    rcases List.eq_nil_or_concat' es with rfl | ⟨pre, e, rfl⟩
    · cases hu
    · exact hstays hp pre e (List.prefix_append _ _) horder u hu
  · intro u hu
    rcases List.eq_nil_or_concat' es with rfl | ⟨pre, e, rfl⟩
    · cases hu
    · have hage := (uses_sound httl e horder (Or.inl (Nat.le_refl _)) u hu).age_le (by omega)
      omega
/-! ### Two processes and a ttl of an hour -/

def sample : TimedRobots where
  cache := RobotsCache.sample
  fetcherAt := fun _ => RobotsCache.sample.fetcher
  ttl := .ofSecs 3600
  hostHash := fun _ => 0

/-- A check of `http://a.test/` at a time in seconds. -/
def checkAt (p secs : Nat) : RobotsEvent :=
  .check p (secs * 10 ^ 9) (RobotsCache.pageA "http" "/") "bot"

/-- The second process asks within a minute of the fetch, and again half an hour later. -/
theorem staleness_iff_prompt :
    sample.Prompt [checkAt 0 0, checkAt 1 60, checkAt 1 1800] {} ∧
      ∀ u ∈ sample.uses [checkAt 0 0, checkAt 1 60, checkAt 1 1800] {}, sample.Fresh u := by
  have hp : sample.Prompt [checkAt 0 0, checkAt 1 60, checkAt 1 1800] {} := by decide +kernel
  exact ⟨hp, (staleness_iff sample (by decide) _ (by decide)).1 hp⟩

/-- It asks first after 45 minutes, and then again 104 minutes after the fetch. -/
theorem stale_taken_over :
    ¬ ∀ u ∈ sample.uses [checkAt 0 0, checkAt 1 2700, checkAt 1 6240] {}, sample.Fresh u := by
  have huses : sample.uses [checkAt 0 0, checkAt 1 2700, checkAt 1 6240] {} =
      [⟨0, 0, .network⟩, ⟨2700 * 10 ^ 9, 0, .redis⟩, ⟨6240 * 10 ^ 9, 0, .inProcess (2700 * 10 ^ 9)⟩] := by
    decide +kernel
  rw [huses]
  intro h
  have hbad : 5 * (6240 * 10 ^ 9 - 0) ≤ 6 * sample.ttl.nanos :=
    h ⟨6240 * 10 ^ 9, 0, .inProcess (2700 * 10 ^ 9)⟩ (by simp)
  exact absurd hbad (by decide)

end TimedRobots

end Crawlrs
