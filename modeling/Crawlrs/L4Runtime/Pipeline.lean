import Crawlrs.Core.Prog
import Crawlrs.L1Data.Routing
import Crawlrs.L4Runtime.Ledger

/-!
# The per-URL pipeline (`crawlrs-runtime/src/worker.rs`)

`UrlPipeline.run` as a program over its collaborators: one definition per phase
method, one call per `await`. Every collaborator's answer may be an error; the
pipeline logs it and moves on, so the answer is dropped where the source only
warns. Metrics, logs and phase timers are left out.

`run` reads as the source does: `politenessAllows`, `markAttempting`, `fetch`,
`extract`, `computeOutbound`, `finalize`.
-/
namespace Crawlrs

open Prog (each Only only_perform only_bind only_each)

/-! ## What the collaborators exchange -/

/-- mirrors crates/crawlrs-core/src/traits/politeness.rs:40-52 -/
inductive DisallowReason
  | robots
  | circuit
deriving DecidableEq, Repr

/-- mirrors crates/crawlrs-core/src/traits/politeness.rs:24-35 -/
inductive PoliteDecision
  | allow
  | disallow (reason : DisallowReason)
deriving DecidableEq, Repr

/-- mirrors crates/crawlrs-core/src/types.rs:175-182 -/
structure NextWake where
  host : Host
  untilMs : UInt64
deriving DecidableEq, Repr

/-- The timeout is in seconds.
mirrors crates/crawlrs-core/src/types.rs:207-222 -/
structure FetchRequest where
  url : CanonicalUrl
  headers : List (String × String) := []
  timeout : Nat := 30
deriving DecidableEq, Repr

/-- mirrors crates/crawlrs-core/src/types.rs:241-260 -/
structure FetchResponse where
  url : CanonicalUrl
  status : UInt16
  headers : List (String × String)
  body : Bytes
deriving DecidableEq, Repr

/-- mirrors crates/crawlrs-core/src/types.rs:271-289 -/
structure ParsedDocument where
  url : CanonicalUrl
  status : UInt16
  title : Option String
  text : Option String
  outboundLinks : List CanonicalUrl
deriving DecidableEq, Repr

/-- mirrors crates/crawlrs-core/src/types.rs:310-318 -/
structure StoreRecord where
  doc : ParsedDocument
  resp : FetchResponse
  runId : String
  shard : ShardKey
  depth : UInt32
  contentHash : UInt64
deriving DecidableEq, Repr

/-- mirrors crates/crawlrs-core/src/traits/frontier.rs:94-112 -/
structure SubmitBatchOutcome where
  queued : Nat := 0
  rejectedUrls : List UrlEntry := []
deriving DecidableEq, Repr

/-- mirrors crates/crawlrs-core/src/types.rs:415-425 -/
inductive LinkDispatch
  | direct
  | durableOutbox
deriving DecidableEq, Repr

/-- The calls of a pipeline; an adapter is named by its place in the registry, and the clock
gives nanoseconds since the epoch. -/
inductive Call
  | ledger (c : Ledger.Call)
  | check (url : CanonicalUrl)
  | recordFetch (url : CanonicalUrl)
  | recordFailure (url : CanonicalUrl) (kind : FailureKind) (retryAfter : Option Nat)
  | fetch (request : FetchRequest)
  | adapterExtract (adapter : Nat) (resp : FetchResponse)
  | parse (resp : FetchResponse)
  | storeWrite (record : StoreRecord)
  | ack (attemptId : String)
  | advanceWake (host : Host) (untilMs : UInt64)
  | submitBatch (entries : List UrlEntry)
  | now

abbrev Call.Answer : Call → Type
  | .ledger c => c.Answer
  | .check _ => Except Error PoliteDecision
  | .recordFetch _ => Except Error NextWake
  | .recordFailure .. => Except Error NextWake
  | .fetch _ => Except Error FetchResponse
  | .adapterExtract .. => Except Error (Option ParsedDocument)
  | .parse _ => Except Error ParsedDocument
  | .storeWrite _ => Except Error String
  | .ack _ => Except Error Unit
  | .advanceWake .. => Except Error Unit
  | .submitBatch _ => Except Error SubmitBatchOutcome
  | .now => Int

def Call.isAck : Call → Bool
  | .ack _ => true
  | _ => false

theorem Call.eq_ack_of_isAck {c : Call} (h : c.isAck) : ∃ a, c = .ack a := by
  cases c with
  | ack a => exact ⟨a, rfl⟩
  | _ => simp [Call.isAck] at h

abbrev Pipe := Prog Call Call.Answer

/-- `collaborator.method(..).await`. -/
abbrev await (c : Call) : Pipe c.Answer := Prog.perform c

/-! ## The pipeline -/

/-- What a worker is configured with; the collaborators themselves are behind `Call`.
mirrors crates/crawlrs-runtime/src/worker.rs:95-133 -/
structure WorkerDeps where
  maxRetries : UInt32
  linkDispatch : LinkDispatch
  crawlScope : CrawlScope
  blocklist : Blocklist
  runId : String
  shardKey : CanonicalUrl → ShardKey
  /-- `matches` of each registered adapter. -/
  adapters : List (CanonicalUrl → Bool)
  /-- `httpdate::parse_http_date`, in seconds since the epoch. -/
  httpDate : String → Option Nat

/-- A worker without caps, blocklist or adapters, on one shard. -/
def WorkerDeps.sample : WorkerDeps where
  maxRetries := 5
  linkDispatch := .direct
  crawlScope := ⟨none, none, fun _ => none⟩
  blocklist := ⟨[]⟩
  runId := "run-1"
  shardKey := fun _ => 0
  adapters := []
  httpDate := fun _ => none

/-- mirrors crates/crawlrs-runtime/src/worker.rs:247-254 -/
structure UrlPipeline where
  deps : WorkerDeps
  entry : UrlEntry
  attemptId : String

/-- mirrors crates/crawlrs-runtime/src/worker.rs:793-796 -/
structure OutboundPartition where
  kept : List UrlEntry
  depthSkipped : List UrlEntry
deriving DecidableEq, Repr

/-- `Option::is_some_and(|limit| depth > limit)`. -/
def overCap (cap : Option UInt32) (depth : UInt32) : Bool :=
  match cap with
  | some limit => limit < depth
  | none => false

/-- Release builds wrap `depth + 1`.
mirrors crates/crawlrs-runtime/src/worker.rs:812-856 -/
def computeOutbound (parent : UrlEntry) (doc : ParsedDocument) (depthCap : Host → Option UInt32) :
    OutboundPartition :=
  let newDepth := parent.depth + 1
  let entries := (doc.outboundLinks.filter CanonicalUrl.isHttp).map fun url =>
    (⟨url, newDepth, some parent.url⟩ : UrlEntry)
  let tooDeep (e : UrlEntry) : Bool := overCap (e.url.host.bind depthCap) newDepth
  ⟨entries.filter fun e => !tooDeep e, entries.filter tooDeep⟩

/-- `SystemTime` as `u64` milliseconds since the epoch, 0 before it. -/
def millis (ns : Int) : UInt64 := UInt64.ofNat (ns.toNat / 10 ^ 6)

namespace UrlPipeline

variable (p : UrlPipeline)

def url : CanonicalUrl := p.entry.url

def ack : Pipe Unit := do
  let _ ← await (.ack p.attemptId)
  pure ()

/-- mirrors crates/crawlrs-runtime/src/worker.rs:414-429 -/
def recordDiscoveredSkip (url : CanonicalUrl) (depth : UInt32)
    (discoveredFrom : Option CanonicalUrl) (reason : SkipReason) : Pipe Unit := do
  let _ ← await (.ledger (.markDiscoveredSkipped url p.deps.runId depth discoveredFrom reason))
  pure ()

/-- `if let Some(host) = url.host() && blocklist.is_blocked(host)`. -/
def blocked : Bool := p.url.host.any p.deps.blocklist.isBlocked

/-- mirrors crates/crawlrs-runtime/src/worker.rs:345-406 -/
def politenessAllows : Pipe Bool :=
  if p.blocked then do
    p.recordDiscoveredSkip p.url p.entry.depth p.entry.discoveredFrom .blocklist
    p.ack
    pure false
  else do
    match ← await (.check p.url) with
    | .ok .allow => pure true
    | .ok (.disallow .robots) =>
      p.recordDiscoveredSkip p.url p.entry.depth p.entry.discoveredFrom .robots
      p.ack
      pure false
    | .ok (.disallow .circuit) =>
      p.ack
      pure false
    | .error _ => pure false

/-- mirrors crates/crawlrs-runtime/src/worker.rs:435-445 -/
def markAttempting : Pipe Unit := do
  let _ ← await (.ledger (.markAttempting p.url p.deps.runId p.entry.depth))
  pure ()

/-- mirrors crates/crawlrs-runtime/src/worker.rs:516-537 -/
def applyWakePlan (plan : Except Error NextWake) : Pipe Unit :=
  match plan with
  | .ok next => do
    let now ← await .now
    if next.untilMs ≤ millis now then pure ()
    else do
      let _ ← await (.advanceWake next.host next.untilMs)
      pure ()
  | .error _ => pure ()

/-- mirrors crates/crawlrs-runtime/src/worker.rs:746-784 -/
def handleFailure (kind : FailureKind) (reason : String) : Pipe Unit := do
  match ← await (.ledger (.markFailed p.url kind)) with
  | .error _ => pure ()
  | .ok newCount =>
    if p.deps.maxRetries ≤ newCount then do
      let dlqReason := s!"retries exceeded ({newCount}): " ++ reason
      let _ ← await (.ledger (.markPermanentlyFailed p.url dlqReason))
      p.ack
    else pure ()

/-- The hint of the response's headers, relative to the clock.
mirrors crates/crawlrs-runtime/src/failure.rs:149-151 -/
def retryAfter (headers : List (String × String)) : Pipe (Option Nat) :=
  match extractRetryAfter p.deps.httpDate headers with
  | .absent => pure none
  | .delta ns => pure (some ns)
  | .date atNs => do
    let now ← await .now
    pure (some (atNs - now).toNat)

/-- A typed transport failure carries its category. -/
def failureOf : Error → FailureKind
  | .transport kind _ => kind
  | e => classifyTransportError e

/-- mirrors crates/crawlrs-runtime/src/worker.rs:451-506 -/
def fetch : Pipe (Option FetchResponse) := do
  match ← await (.fetch { url := p.url }) with
  | .error e =>
    let kind := failureOf e
    let plan ← await (.recordFailure p.url kind none)
    applyWakePlan plan
    p.handleFailure kind ("transport: " ++ e.display)
    pure none
  | .ok resp =>
    match classifyStatus resp.status with
    | some kind => do
      let hint ← p.retryAfter resp.headers
      let plan ← await (.recordFailure p.url kind hint)
      applyWakePlan plan
      p.handleFailure kind s!"http {resp.status}"
      pure none
    | none => do
      let plan ← await (.recordFetch p.url)
      applyWakePlan plan
      pure (some resp)

/-- mirrors crates/crawlrs-runtime/src/worker.rs:587-600 -/
def failParse (reason : String) : Pipe Unit := do
  let _ ← await (.ledger (.markPermanentlyFailed p.url ("parse: " ++ reason)))
  p.ack

/-- mirrors crates/crawlrs-runtime/src/worker.rs:567-582 -/
def parseGeneric (resp : FetchResponse) : Pipe (Option ParsedDocument) := do
  match ← await (.parse resp) with
  | .ok doc => pure (some doc)
  | .error e =>
    p.failParse ("parser: " ++ e.display)
    pure none

/-- mirrors crates/crawlrs-runtime/src/worker.rs:546-583 -/
def extract (resp : FetchResponse) : Pipe (Option ParsedDocument) :=
  match p.deps.adapters.findIdx? fun matchesUrl => matchesUrl resp.url with
  | none => p.parseGeneric resp
  | some adapter => do
    match ← await (.adapterExtract adapter resp) with
    | .ok (some doc) => pure (some doc)
    | .ok none => p.parseGeneric resp
    | .error e =>
      p.failParse ("adapter: " ++ e.display)
      pure none

/-- Direct dispatch of a page's links.
mirrors crates/crawlrs-runtime/src/worker.rs:691-721 -/
def dispatchDirect (outbound : List UrlEntry) : Pipe Unit := do
  match ← await (.submitBatch outbound) with
  | .ok outcome =>
    each (fun rejected => p.recordDiscoveredSkip rejected.url rejected.depth
      rejected.discoveredFrom .maxUrls) outcome.rejectedUrls
  | .error _ => pure ()

/-- mirrors crates/crawlrs-runtime/src/worker.rs:684 -/
def dispatch (outbound : List UrlEntry) : Pipe Unit :=
  if p.deps.linkDispatch = .direct ∧ outbound ≠ [] then p.dispatchDirect outbound else pure ()

/-- What `Store::write` is given. -/
def storeRecord (resp : FetchResponse) (doc : ParsedDocument) : StoreRecord where
  doc := doc
  resp := resp
  runId := p.deps.runId
  shard := p.deps.shardKey p.url
  depth := p.entry.depth
  contentHash := Crawlrs.contentHash resp.body

/-- mirrors crates/crawlrs-runtime/src/worker.rs:654-664 -/
def successRecord (resp : FetchResponse) (blobPath : String) (outbound : List UrlEntry) :
    SuccessRecord where
  url := p.url
  attemptId := p.attemptId
  blobPath := blobPath
  contentHash := Crawlrs.contentHash resp.body
  outbound := match p.deps.linkDispatch with
    | .durableOutbox => outbound
    | .direct => []

/-- mirrors crates/crawlrs-runtime/src/worker.rs:608-737 -/
def finalize (resp : FetchResponse) (doc : ParsedDocument) (partition : OutboundPartition) :
    Pipe Unit := do
  match ← await (.storeWrite (p.storeRecord resp doc)) with
  | .error _ => p.ack
  | .ok blobPath =>
    let _ ← await (.ledger (.markSucceeded (p.successRecord resp blobPath partition.kept)))
    each (fun child => p.recordDiscoveredSkip child.url child.depth child.discoveredFrom .depth)
      partition.depthSkipped
    p.dispatch partition.kept
    p.ack

/-- mirrors crates/crawlrs-runtime/src/worker.rs:298-321 -/
def run : Pipe Unit := do
  if ← p.politenessAllows then
    p.markAttempting
    match ← p.fetch with
    | none => pure ()
    | some resp =>
      match ← p.extract resp with
      | none => pure ()
      | some doc =>
        p.finalize resp doc (computeOutbound p.entry doc p.deps.crawlScope.depthCap)
  else pure ()

end UrlPipeline

/-! ## Which calls a phase makes -/

inductive CallKind
  | attempting
  | succeeded
  | failed
  | permanentlyFailed
  | skipped
  | check
  | recordFetch
  | recordFailure
  | fetch
  | adapterExtract
  | parse
  | storeWrite
  | ack
  | advanceWake
  | submitBatch
  | now
deriving DecidableEq, Repr

def Call.kind : Call → CallKind
  | .ledger (.markAttempting ..) => .attempting
  | .ledger (.markSucceeded _) => .succeeded
  | .ledger (.markFailed ..) => .failed
  | .ledger (.markPermanentlyFailed ..) => .permanentlyFailed
  | .ledger (.markDiscoveredSkipped ..) => .skipped
  | .check _ => .check
  | .recordFetch _ => .recordFetch
  | .recordFailure .. => .recordFailure
  | .fetch _ => .fetch
  | .adapterExtract .. => .adapterExtract
  | .parse _ => .parse
  | .storeWrite _ => .storeWrite
  | .ack _ => .ack
  | .advanceWake .. => .advanceWake
  | .submitBatch _ => .submitBatch
  | .now => .now

/-- The call is of one of the kinds. -/
def Call.In (ks : List CallKind) (c : Call) : Prop := c.kind ∈ ks

theorem Call.In.mono {ks ks' : List CallKind} (h : ks ⊆ ks') (c : Call) (hc : c.In ks) : c.In ks' :=
  h hc

section Kinds

variable (p : UrlPipeline)

theorem kinds_ack : Only (Call.In [.ack]) p.ack :=
  only_bind (only_perform (by simp [Call.In, Call.kind])) fun _ => trivial

theorem kinds_recordDiscoveredSkip (url : CanonicalUrl) (depth : UInt32)
    (discoveredFrom : Option CanonicalUrl) (reason : SkipReason) :
    Only (Call.In [.skipped]) (p.recordDiscoveredSkip url depth discoveredFrom reason) :=
  only_bind (only_perform (by simp [Call.In, Call.kind])) fun _ => trivial

theorem kinds_politenessAllows : Only (Call.In [.check, .skipped, .ack]) p.politenessAllows := by
  have hack : Only (Call.In [.check, .skipped, .ack]) (do
      p.ack
      pure false) :=
    only_bind ((kinds_ack p).mono (Call.In.mono (by decide))) fun _ => trivial
  have hskip (reason : SkipReason) : Only (Call.In [.check, .skipped, .ack]) (do
      p.recordDiscoveredSkip p.url p.entry.depth p.entry.discoveredFrom reason
      p.ack
      pure false) :=
    only_bind ((kinds_recordDiscoveredSkip p _ _ _ _).mono (Call.In.mono (by decide))) fun _ => hack
  unfold UrlPipeline.politenessAllows
  split
  · exact hskip .blocklist
  · refine only_bind (only_perform (by simp [Call.In, Call.kind])) fun r => ?_
    match r with
    | .ok .allow => trivial
    | .ok (.disallow .robots) => exact hskip .robots
    | .ok (.disallow .circuit) => exact hack
    | .error e => trivial

theorem kinds_markAttempting : Only (Call.In [.attempting]) p.markAttempting :=
  only_bind (only_perform (by simp [Call.In, Call.kind])) fun _ => trivial

theorem kinds_applyWakePlan (plan : Except Error NextWake) :
    Only (Call.In [.now, .advanceWake]) (UrlPipeline.applyWakePlan plan) := by
  cases plan with
  | error e => trivial
  | ok next =>
    refine only_bind (only_perform (by simp [Call.In, Call.kind])) fun now => ?_
    split
    · trivial
    · exact only_bind (only_perform (by simp [Call.In, Call.kind])) fun _ => trivial

theorem kinds_handleFailure (kind : FailureKind) (reason : String) :
    Only (Call.In [.failed, .permanentlyFailed, .ack]) (p.handleFailure kind reason) := by
  refine only_bind (only_perform (by simp [Call.In, Call.kind])) fun r => ?_
  cases r with
  | error e => trivial
  | ok newCount =>
    dsimp only
    split
    · exact only_bind (only_perform (by simp [Call.In, Call.kind])) fun _ =>
        (kinds_ack p).mono (Call.In.mono (by decide))
    · trivial

theorem kinds_retryAfter (headers : List (String × String)) :
    Only (Call.In [.now]) (p.retryAfter headers) := by
  unfold UrlPipeline.retryAfter
  split
  · trivial
  · trivial
  · exact only_bind (only_perform (by simp [Call.In, Call.kind])) fun _ => trivial

theorem kinds_fetch : Only (Call.In [.fetch, .recordFetch, .recordFailure, .now, .advanceWake,
    .failed, .permanentlyFailed, .ack]) p.fetch := by
  have hfail (kind : FailureKind) (hint : Option Nat) (reason : String) :
      Only (Call.In [.fetch, .recordFetch, .recordFailure, .now, .advanceWake, .failed,
        .permanentlyFailed, .ack]) (do
      let plan ← await (.recordFailure p.url kind hint)
      UrlPipeline.applyWakePlan plan
      p.handleFailure kind reason
      pure (none : Option FetchResponse)) :=
    only_bind (only_perform (by simp [Call.In, Call.kind])) fun _ =>
      only_bind ((kinds_applyWakePlan _).mono (Call.In.mono (by decide))) fun _ =>
        only_bind ((kinds_handleFailure p _ _).mono (Call.In.mono (by decide))) fun _ => trivial
  refine only_bind (only_perform (by simp [Call.In, Call.kind])) fun r => ?_
  cases r with
  | error e => exact hfail _ none _
  | ok resp =>
    dsimp only
    split
    · exact only_bind ((kinds_retryAfter p _).mono (Call.In.mono (by decide))) fun hint =>
        hfail _ hint _
    · exact only_bind (only_perform (by simp [Call.In, Call.kind])) fun _ =>
        only_bind ((kinds_applyWakePlan _).mono (Call.In.mono (by decide))) fun _ => trivial

theorem kinds_failParse (reason : String) :
    Only (Call.In [.permanentlyFailed, .ack]) (p.failParse reason) :=
  only_bind (only_perform (by simp [Call.In, Call.kind])) fun _ =>
    (kinds_ack p).mono (Call.In.mono (by decide))

theorem kinds_extract (resp : FetchResponse) :
    Only (Call.In [.adapterExtract, .parse, .permanentlyFailed, .ack]) (p.extract resp) := by
  have hfail (reason : String) : Only (Call.In [.adapterExtract, .parse, .permanentlyFailed, .ack])
      (do
      p.failParse reason
      pure (none : Option ParsedDocument)) :=
    only_bind ((kinds_failParse p reason).mono (Call.In.mono (by decide))) fun _ => trivial
  have hparse : Only (Call.In [.adapterExtract, .parse, .permanentlyFailed, .ack])
      (p.parseGeneric resp) := by
    refine only_bind (only_perform (by simp [Call.In, Call.kind])) fun r => ?_
    cases r with
    | ok doc => trivial
    | error e => exact hfail _
  unfold UrlPipeline.extract
  split
  · exact hparse
  · refine only_bind (only_perform (by simp [Call.In, Call.kind])) fun r => ?_
    match r with
    | .ok (some doc) => trivial
    | .ok none => exact hparse
    | .error e => exact hfail _

theorem kinds_dispatch (outbound : List UrlEntry) :
    Only (Call.In [.submitBatch, .skipped]) (p.dispatch outbound) := by
  unfold UrlPipeline.dispatch
  split
  · refine only_bind (only_perform (by simp [Call.In, Call.kind])) fun r => ?_
    cases r with
    | error e => trivial
    | ok outcome =>
      exact only_each (fun _ => (kinds_recordDiscoveredSkip p _ _ _ _).mono
        (Call.In.mono (by decide))) _
  · trivial

/-- What `finalize` does once the page is committed. -/
theorem kinds_afterCommit (partition : OutboundPartition) :
    Only (Call.In [.skipped, .submitBatch, .ack]) (do
    each (fun child => p.recordDiscoveredSkip child.url child.depth child.discoveredFrom .depth)
      partition.depthSkipped
    p.dispatch partition.kept
    p.ack) :=
  only_bind (only_each (fun _ => (kinds_recordDiscoveredSkip p _ _ _ _).mono
      (Call.In.mono (by decide))) _) fun _ =>
    only_bind ((kinds_dispatch p _).mono (Call.In.mono (by decide))) fun _ =>
      (kinds_ack p).mono (Call.In.mono (by decide))

end Kinds

/-! ### Plain calls

All phases but `extract` and `finalize` are made of them. -/

/-- Every call but the two that yield a document, the write of the page and its commit. -/
def Call.Plain : Call → Prop
  | .parse _ => False
  | .adapterExtract .. => False
  | .storeWrite _ => False
  | .ledger (.markSucceeded _) => False
  | _ => True

theorem Call.plain_of_in {ks : List CallKind}
    (h : ∀ k ∈ ks, k ∉ [.parse, .adapterExtract, .storeWrite, .succeeded]) (c : Call)
    (hc : c.In ks) : c.Plain := by
  have hk := h _ hc
  match c, hk with
  | .parse _, hk => simp [Call.kind] at hk
  | .adapterExtract .., hk => simp [Call.kind] at hk
  | .storeWrite _, hk => simp [Call.kind] at hk
  | .ledger (.markSucceeded _), hk => simp [Call.kind] at hk
  | .ledger (.markAttempting ..), _ => trivial
  | .ledger (.markFailed ..), _ => trivial
  | .ledger (.markPermanentlyFailed ..), _ => trivial
  | .ledger (.markDiscoveredSkipped ..), _ => trivial
  | .check _, _ => trivial
  | .recordFetch _, _ => trivial
  | .recordFailure .., _ => trivial
  | .fetch _, _ => trivial
  | .ack _, _ => trivial
  | .advanceWake .., _ => trivial
  | .submitBatch _, _ => trivial
  | .now, _ => trivial

section Plain

variable (p : UrlPipeline)

theorem plain_ack : Only Call.Plain p.ack := (kinds_ack p).mono (Call.plain_of_in (by decide))

theorem plain_politenessAllows : Only Call.Plain p.politenessAllows :=
  (kinds_politenessAllows p).mono (Call.plain_of_in (by decide))

theorem plain_markAttempting : Only Call.Plain p.markAttempting :=
  (kinds_markAttempting p).mono (Call.plain_of_in (by decide))

theorem plain_fetch : Only Call.Plain p.fetch :=
  (kinds_fetch p).mono (Call.plain_of_in (by decide))

theorem plain_failParse (reason : String) : Only Call.Plain (p.failParse reason) :=
  (kinds_failParse p reason).mono (Call.plain_of_in (by decide))

theorem plain_afterCommit (partition : OutboundPartition) : Only Call.Plain (do
    each (fun child => p.recordDiscoveredSkip child.url child.depth child.discoveredFrom .depth)
      partition.depthSkipped
    p.dispatch partition.kept
    p.ack) :=
  (kinds_afterCommit p partition).mono (Call.plain_of_in (by decide))

end Plain

end Crawlrs
