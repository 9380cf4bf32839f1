import Crawlrs.Core.Tiers
import Crawlrs.L1Data.Tokens
import Crawlrs.L4Runtime.Outbox

/-!
# The robots.txt cache (`crawlrs-politeness/src/robots.rs`, `keys.rs`)

The body of a host's robots.txt is kept in the process and, shared by the pods, in a
Redis hash; on a miss of both it is fetched and cached, an absent one as empty. Both
tiers are keyed by the host (the Redis one also by its shard), "per-host" by their
documentation, and the fetch is of `{scheme}://{host}/robots.txt` with the scheme of
the URL that is being checked.

`Robot::new` with its `allowed`, `CanonicalUrl::parse` and the fetcher are parameters.
Redis answers, nothing expires, and the entries of the process may be evicted at any
time.

* `tiers_bodyFor`: the two caches are `Tiers` over hosts.
* `allowed_eq`: a verdict is by the robots.txt of the URL's host under the scheme of
  the first of the host's URLs that was checked.
* `verdict_by_host`: when two histories agree, and when a verdict is by the URL's own
  origin.
-/
namespace Crawlrs

/-- mirrors crates/crawlrs-politeness/src/keys.rs:34-36 -/
def robotsKey (runId : String) (shard : ShardKey) (host : Host) : String :=
  "crawlrs:" ++ (runId ++ (":s" ++ (toString shard.toNat ++ (":robots:" ++ host))))

/-- No other host has the key: a shard has no colon. -/
theorem robotsKey_host {runId : String} {s s' : ShardKey} {h h' : Host}
    (he : robotsKey runId s h = robotsKey runId s' h') : h = h' := by
  have hsplit (s : ShardKey) (h : Host) : splitOnce ':' ((toString s.toNat).toList ++
      (":robots:".toList ++ h.toList)) =
        some (Nat.toDigits 10 s.toNat, "robots:".toList ++ h.toList) := by
    have hdig : ':' ∉ Nat.toDigits 10 s.toNat := fun hm =>
      absurd (isDigit_toDigits hm) (by decide)
    have hs : (toString s.toNat).toList = Nat.toDigits 10 s.toNat := by simp [Nat.toList_repr]
    rw [hs]
    exact splitOnce_append hdig _
  have hl := congrArg String.toList he
  simp only [robotsKey, String.toList_append] at hl
  have htail := List.append_cancel_left (List.append_cancel_left (List.append_cancel_left hl))
  have hparts := congrArg (splitOnce ':') htail
  rw [hsplit, hsplit] at hparts
  have hrest := congrArg Prod.snd (Option.some.inj hparts)
  exact String.toList_inj.1 (List.append_cancel_left hrest)

/-- A cache with its collaborators.
mirrors crates/crawlrs-politeness/src/robots.rs:77-86 -/
structure RobotsCache where
  runId : String
  policy : HostHashShardPolicy
  fetcher : FetchRequest → Except Error FetchResponse
  fetchTimeout : Nat := 15
  parse : ParseUrl
  /-- `Robot::new(user_agent, body)`, by its `allowed`. -/
  robot : String → Bytes → Option (String → Bool)

/-- The fields of a Redis hash, none of them when the key is missing. -/
structure RobotsHash where
  status : Option String := none
  body : Option Bytes := none

structure RobotsState where
  inProcess : Host → Option Bytes := fun _ => none
  redis : String → RobotsHash := fun _ => {}

/-- mirrors crates/crawlrs-politeness/src/robots.rs:197-209 -/
def RobotsHash.read (h : RobotsHash) : Option Bytes :=
  match h.status with
  | some "ok" => h.body
  | some "absent" => some []
  | some _ => none
  | none => none

/-- `std::str::from_utf8(..).is_ok()`. -/
def isUtf8 (body : Bytes) : Bool := body.toByteArray.validateUTF8

namespace RobotsCache

variable (C : RobotsCache)

/-- mirrors crates/crawlrs-politeness/src/robots.rs:297-309 -/
def evaluateRules (body : Bytes) (userAgent url : String) : Bool :=
  if body = [] then true
  else if isUtf8 body = false then true
  else match C.robot userAgent body with
    | some allowed => allowed url
    | none => true

/-- mirrors crates/crawlrs-politeness/src/robots.rs:174-210 -/
def readCache (host : Host) (sourceUrl : CanonicalUrl) (S : RobotsState) : Option Bytes :=
  (S.redis (robotsKey C.runId (C.policy.shardKey sourceUrl) host)).read

/-- mirrors crates/crawlrs-politeness/src/robots.rs:252-288 -/
def writeCache (host : Host) (sourceUrl : CanonicalUrl) (body : Option Bytes) (S : RobotsState) :
    RobotsState :=
  let key := robotsKey C.runId (C.policy.shardKey sourceUrl) host
  let hash : RobotsHash := match body with
    | some b => ⟨some "ok", some b⟩
    | none => ⟨some "absent", none⟩
  { S with redis := Function.update S.redis key hash }

def robotsUrl (scheme : String) (host : Host) : String := scheme ++ "://" ++ host ++ "/robots.txt"

/-- The body of a 200, everything else is absent.
mirrors crates/crawlrs-politeness/src/robots.rs:218-249 -/
def fetchBody (url : CanonicalUrl) : Option Bytes :=
  match C.fetcher { url := url, timeout := C.fetchTimeout } with
  | .error _ => none
  | .ok resp => if resp.status = 200 then some resp.body else none

/-- mirrors crates/crawlrs-politeness/src/robots.rs:212-250 -/
def fetchAndCache (host : Host) (sourceUrl : CanonicalUrl) (S : RobotsState) :
    Except String Bytes × RobotsState :=
  let text := robotsUrl sourceUrl.url.scheme host
  match C.parse text with
  | .error e => (.error ("invalid robots url " ++ text ++ ": " ++ e), S)
  | .ok url =>
    let body := C.fetchBody url
    (.ok (body.getD []), C.writeCache host sourceUrl body S)

/-- mirrors crates/crawlrs-politeness/src/robots.rs:158-172 -/
def bodyFor (host : Host) (sourceUrl : CanonicalUrl) (S : RobotsState) :
    Except String Bytes × RobotsState :=
  match S.inProcess host with
  | some cached => (.ok cached, S)
  | none =>
    match C.readCache host sourceUrl S with
    | some cached => (.ok cached, { S with inProcess := Function.update S.inProcess host (some cached) })
    | none =>
      match C.fetchAndCache host sourceUrl S with
      | (.error e, S) => (.error e, S)
      | (.ok body, S) => (.ok body, { S with inProcess := Function.update S.inProcess host (some body) })

/-- mirrors crates/crawlrs-politeness/src/robots.rs:142-150 -/
def allowed (url : CanonicalUrl) (userAgent : String) (S : RobotsState) :
    Except String Bool × RobotsState :=
  match url.host with
  | none => (.ok true, S)
  | some host =>
    let (body, S) := C.bodyFor host url S
    (body.map fun body => C.evaluateRules body userAgent url.asStr, S)

/-! ## Two tiers -/

/-- What a fetch of the host's robots.txt gives under a scheme. -/
def robotsAt (scheme : String) (host : Host) : Except String Bytes :=
  match C.parse (robotsUrl scheme host) with
  | .error e => .error ("invalid robots url " ++ robotsUrl scheme host ++ ": " ++ e)
  | .ok url => .ok ((C.fetchBody url).getD [])

/-- The two caches, by host. -/
def tiers (S : RobotsState) : Tiers Host Bytes where
  upper := S.inProcess
  lower host := (S.redis (robotsKey C.runId (C.policy.shardKeyFromHost host) host)).read

variable {C}

theorem tiers_writeCache {host : Host} {url : CanonicalUrl} (hu : url.host = some host)
    (body : Option Bytes) (S : RobotsState) : (C.tiers (C.writeCache host url body S)).lower =
      Function.update (C.tiers S).lower host (some (body.getD [])) := by
  have hs : C.policy.shardKey url = C.policy.shardKeyFromHost host := by
    simp [HostHashShardPolicy.shardKey, hu]
  funext h
  by_cases hh : h = host
  · subst hh
    cases body <;> simp [tiers, writeCache, hs, RobotsHash.read]
  · have hk : robotsKey C.runId (C.policy.shardKeyFromHost h) h ≠
        robotsKey C.runId (C.policy.shardKeyFromHost host) host := fun he => hh (robotsKey_host he)
    simp [tiers, writeCache, hs, hh, hk]

/-- `body_for` reads through the two tiers. -/
theorem tiers_bodyFor {host : Host} {url : CanonicalUrl} (hu : url.host = some host)
    (S : RobotsState) :
    ((C.bodyFor host url S).1, C.tiers (C.bodyFor host url S).2) =
      (C.tiers S).read host (C.robotsAt url.url.scheme host) := by
  have hs : C.policy.shardKey url = C.policy.shardKeyFromHost host := by
    simp [HostHashShardPolicy.shardKey, hu]
  have hlow : C.readCache host url S = (C.tiers S).lower host := by
    simp [readCache, tiers, hs]
  have hup : S.inProcess host = (C.tiers S).upper host := rfl
  unfold bodyFor Tiers.read
  rw [hup, hlow]
  cases (C.tiers S).upper host with
  | some b => rfl
  | none =>
    cases (C.tiers S).lower host with
    | some b => rfl
    | none =>
      simp only [fetchAndCache, robotsAt]
      cases C.parse (robotsUrl url.url.scheme host) with
      | error e => rfl
      | ok r =>
        simp only [Prod.mk.injEq, true_and]
        have hw := tiers_writeCache (C := C) hu (C.fetchBody r) S
        have hlower : (C.tiers { C.writeCache host url (C.fetchBody r) S with
            inProcess := Function.update S.inProcess host (some ((C.fetchBody r).getD [])) }).lower =
              Function.update (C.tiers S).lower host (some ((C.fetchBody r).getD [])) := hw
        exact congrArg (Tiers.mk (Function.update S.inProcess host (some ((C.fetchBody r).getD []))))
          hlower

/-! ## Histories -/

inductive Event
  | check (url : CanonicalUrl) (userAgent : String)
  | evict (drop : Host → Bool)

def step (C : RobotsCache) (S : RobotsState) : Event → RobotsState
  | .check url userAgent => (C.allowed url userAgent S).2
  | .evict drop => { S with inProcess := fun h => if drop h then none else S.inProcess h }

/-- The caches after some checks and evictions. -/
def after (C : RobotsCache) (history : List Event) : RobotsState := history.foldl C.step {}

def Event.url? : Event → Option CanonicalUrl
  | .check url _ => some url
  | .evict _ => none

/-- The URLs a history checked. -/
def checked (history : List Event) : List CanonicalUrl := history.filterMap Event.url?

/-- What each check of a URL with a host would have fetched. -/
def request (C : RobotsCache) (url : CanonicalUrl) : Option (Host × Except String Bytes) :=
  url.host.map fun host => (host, C.robotsAt url.url.scheme host)

def requests (C : RobotsCache) (history : List Event) : List (Host × Except String Bytes) :=
  (checked history).filterMap C.request

theorem holds_after (history : List Event) :
    (C.tiers (C.after history)).Holds (Tiers.firstLoad (C.requests history)) := by
  induction history using List.reverseRecOn with
  | nil => exact ⟨rfl, fun k b h => by cases h⟩
  | append_singleton history e ih =>
    have hafter : C.after (history ++ [e]) = C.step (C.after history) e := by simp [after]
    rw [hafter]
    cases e with
    | evict drop =>
      have hreq : C.requests (history ++ [.evict drop]) = C.requests history := by
        simp [requests, checked, Event.url?]
      rw [hreq]
      exact ih.evict drop
    | check url userAgent =>
      simp only [step, allowed]
      cases hu : url.host with
      | none =>
        have hreq : C.requests (history ++ [.check url userAgent]) = C.requests history := by
          simp [requests, checked, Event.url?, request, hu]
        rw [hreq]
        exact ih
      | some host =>
        have hreq : C.requests (history ++ [.check url userAgent]) =
            C.requests history ++ [(host, C.robotsAt url.url.scheme host)] := by
          simp [requests, checked, Event.url?, request, hu]
        have hst := congrArg Prod.snd (tiers_bodyFor (C := C) hu (C.after history))
        dsimp only at hst ⊢
        rw [hreq, Tiers.firstLoad_concat, hst]
        exact ih.read_snd host _

/-! ## Verdicts -/

/-- The check of `url` after a history. -/
def verdict (C : RobotsCache) (history : List Event) (url : CanonicalUrl) (userAgent : String) :
    Except String Bool := (C.allowed url userAgent (C.after history)).1

/-- The URL has the host, and its robots URL is one. -/
def loads (C : RobotsCache) (host : Host) (url : CanonicalUrl) : Bool :=
  url.host == some host && (C.robotsAt url.url.scheme host).toOption.isSome

/-- The first URL of the host that was checked and could load; the URL itself if there is none. -/
def source (C : RobotsCache) (history : List Event) (url : CanonicalUrl) : CanonicalUrl :=
  match url.host with
  | none => url
  | some host => ((checked history).find? (C.loads host)).getD url

theorem firstLoad_requests (history : List Event) (host : Host) :
    Tiers.firstLoad (C.requests history) host =
      ((checked history).find? (C.loads host)).bind fun v =>
        (C.robotsAt v.url.scheme host).toOption := by
  unfold requests
  induction checked history with
  | nil => rfl
  | cons v vs ih =>
    cases hv : v.host with
    | none => simpa [request, loads, hv] using ih
    | some host' =>
      by_cases hh : host' = host
      · subst hh
        cases hr : (C.robotsAt v.url.scheme host').toOption with
        | none => simpa [request, loads, hv, hr, Tiers.firstLoad] using ih
        | some b => simp [request, loads, hv, hr, Tiers.firstLoad]
      · simpa [request, loads, hv, hh, Tiers.firstLoad] using ih

/-- `{scheme}://{host}:{port}/robots.txt`; `Url::port` is `None` for the scheme's default port. -/
def ownRobotsUrl (port : CanonicalUrl → Option UInt16) (url : CanonicalUrl) (host : Host) : String :=
  match port url with
  | some p => url.url.scheme ++ "://" ++ host ++ ":" ++ toString p.toNat ++ "/robots.txt"
  | none => robotsUrl url.url.scheme host

/-- The verdict by the robots.txt of the URL's own origin. -/
def ownVerdict (C : RobotsCache) (port : CanonicalUrl → Option UInt16) (url : CanonicalUrl)
    (userAgent : String) : Except String Bool :=
  match url.host with
  | none => .ok true
  | some host =>
    match C.parse (ownRobotsUrl port url host) with
    | .error e => .error ("invalid robots url " ++ ownRobotsUrl port url host ++ ": " ++ e)
    | .ok robots =>
      .ok (C.evaluateRules ((C.fetchBody robots).getD []) userAgent url.asStr)

theorem allowed_eq {url : CanonicalUrl} {host : Host} (hu : url.host = some host)
    (history : List Event) (userAgent : String) : C.verdict history url userAgent =
      (C.robotsAt (C.source history url).url.scheme host).map fun body =>
        C.evaluateRules body userAgent url.asStr := by
  have hread := congrArg Prod.fst (tiers_bodyFor (C := C) hu (C.after history))
  have hfst := (holds_after (C := C) history).read_fst host (C.robotsAt url.url.scheme host)
  have hbody : (C.bodyFor host url (C.after history)).1 =
      C.robotsAt (C.source history url).url.scheme host := by
    refine (hread.trans hfst).trans ?_
    rw [firstLoad_requests]
    simp only [source, hu]
    cases hf : (checked history).find? (C.loads host) with
    | none => rfl
    | some v =>
      have hloads := List.find?_some hf
      simp only [loads, Bool.and_eq_true] at hloads
      simp only [Option.bind_some, Option.getD_some]
      cases hr : C.robotsAt v.url.scheme host with
      | error e => simp [hr, Except.toOption] at hloads
      | ok b => rfl
  simp only [verdict, allowed, hu]
  rw [hbody]

theorem ownVerdict_eq {url : CanonicalUrl} {host : Host} (hu : url.host = some host)
    {port : CanonicalUrl → Option UInt16} (hport : port url = none) (userAgent : String) :
    C.ownVerdict port url userAgent = (C.robotsAt url.url.scheme host).map fun body =>
      C.evaluateRules body userAgent url.asStr := by
  simp only [ownVerdict, hu, ownRobotsUrl, hport, robotsAt]
  cases C.parse (robotsUrl url.url.scheme host) with
  | error e => rfl
  | ok robots => rfl

/-- **Verdicts are by host.** Two histories give a URL the same verdict when the first URLs of its
host that they checked have the same scheme, and it is the verdict by the URL's own origin when
that scheme is the URL's own and its port the default one. -/
theorem verdict_by_host (C : RobotsCache) (port : CanonicalUrl → Option UInt16)
    (history history' : List Event) (url : CanonicalUrl) (userAgent : String) :
    ((C.source history url).url.scheme = (C.source history' url).url.scheme →
      C.verdict history url userAgent = C.verdict history' url userAgent) ∧
    ((C.source history url).url.scheme = url.url.scheme → port url = none →
      C.verdict history url userAgent = C.ownVerdict port url userAgent) := by
  cases hu : url.host with
  | none =>
    have htrue (history : List Event) : C.verdict history url userAgent = .ok true := by
      simp [verdict, allowed, hu]
    refine ⟨fun _ => by rw [htrue, htrue], fun _ _ => ?_⟩
    rw [htrue]
    simp [ownVerdict, hu]
  | some host =>
    refine ⟨fun hs => ?_, fun hs hport => ?_⟩
    · rw [allowed_eq hu, allowed_eq hu, hs]
    · rw [allowed_eq hu, ownVerdict_eq hu hport, hs]

/-! ### One host under two schemes -/

def disallowAll : Bytes := asBytes "User-agent: *\nDisallow: /"

def pageA (scheme path : String) : CanonicalUrl :=
  ⟨⟨scheme ++ "://a.test" ++ path, scheme, some "a.test"⟩⟩

/-- `a.test` forbids everything under `http` and has no robots.txt under `https`. -/
def sample : RobotsCache where
  runId := "run-1"
  policy := ⟨1, HostHashShardPolicy.one_shard⟩
  fetcher request :=
    if request.url = pageA "http" "/robots.txt" then .ok ⟨request.url, 200, [], disallowAll⟩
    else .ok ⟨request.url, 404, [], []⟩
  parse text :=
    if text = "http://a.test/robots.txt" then .ok (pageA "http" "/robots.txt")
    else if text = "https://a.test/robots.txt" then .ok (pageA "https" "/robots.txt")
    else .error "relative URL without a base"
  robot _ body := if body = disallowAll then some fun _ => false else none

/-- The page is allowed on its own and after a page of its own scheme. -/
theorem verdict_by_host_https :
    sample.verdict [.check (pageA "https" "/b") "bot"] (pageA "https" "/") "bot" =
      sample.verdict [] (pageA "https" "/") "bot" ∧
    sample.verdict [.check (pageA "https" "/b") "bot"] (pageA "https" "/") "bot" =
      sample.ownVerdict (fun _ => none) (pageA "https" "/") "bot" :=
  have h := verdict_by_host sample (fun _ => none) [.check (pageA "https" "/b") "bot"] []
    (pageA "https" "/") "bot"
  ⟨h.1 (by decide +kernel), h.2 (by decide +kernel) rfl⟩

/-- A verdict depends on the URL and its own origin only. -/
def ByOrigin (C : RobotsCache) (port : CanonicalUrl → Option UInt16) : Prop :=
  ∀ (history history' : List Event) (url : CanonicalUrl) (userAgent : String),
    C.verdict history url userAgent = C.verdict history' url userAgent ∧
      C.verdict history url userAgent = C.ownVerdict port url userAgent

/-- After a check of `http://a.test/`, `https://a.test/` is forbidden. -/
theorem not_byOrigin : ¬ ByOrigin sample fun _ => none := by
  intro h
  have hbad := (h [.check (pageA "http" "/") "bot"] [] (pageA "https" "/") "bot").1
  have hu : (pageA "https" "/").host = some "a.test" := rfl
  have hleft : sample.verdict [.check (pageA "http" "/") "bot"] (pageA "https" "/") "bot" =
      .ok false := by
    rw [allowed_eq hu]
    decide +kernel
  have hright : sample.verdict [] (pageA "https" "/") "bot" = .ok true := by
    rw [allowed_eq hu]
    decide +kernel
  rw [hleft, hright] at hbad
  cases hbad

end RobotsCache

end Crawlrs
