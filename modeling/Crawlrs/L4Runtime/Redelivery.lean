import Crawlrs.L4Runtime.Admission
import Crawlrs.L4Runtime.Drain

/-!
# Deliveries of one page, each cut off at any point

A `Page` is a URL the frontier has admitted, with what the collaborators answer
whenever it is delivered. A run of `Page.deliveries` claims the URL, runs
`UrlPipeline::run` call by call, may be cut between any two calls (also between
the two commands of the ack), and claims it again once the lease has been
reclaimed. Between the calls the pods' promoters, reclaimers, other claims and,
under `DurableOutbox`, the publishers go on.

What such a run leaves is `ledgerResult` and `frontierResult`. What it is going
to leave can be read off at any time (`ledgerTarget`, `frontierTarget`): the
result once the missing rows are inserted and the pending links submitted.
-/
namespace Crawlrs

variable {β : Type}

open RedisFrontier (itemsOn onShard)

/-- A page of the pod that owns its shard, and the answers that are the same on every delivery. -/
structure Page (D : Deployment β) where
  pod : Pod D
  deps : WorkerDeps
  entry : UrlEntry
  host : Host
  resp : FetchResponse
  doc : ParsedDocument
  host_eq : entry.url.host = some host
  owned : D.policy.shardKey entry.url ∈ D.owned pod
  allowed : deps.blocklist.isBlocked host = false
  clean : classifyStatus resp.status = none
  uncapped : D.scope.Uncapped

namespace Page

variable {D : Deployment β} (P : Page D)

def shard : ShardKey := D.policy.shardKey P.entry.url

def urlId : UrlId := D.wire.idOf P.entry

def url : String := P.entry.url.asStr

/-- The attempt id of every delivery. -/
def attemptId : String := encodeAttempt P.shard P.urlId P.host

def pipeline : UrlPipeline := ⟨P.deps, P.entry, P.attemptId⟩

def outbound : OutboundPartition := computeOutbound P.entry P.doc P.deps.crawlScope.depthCap

/-- The links the page's commit writes to the outbox. -/
def links : List UrlEntry := (P.pipeline.successRecord P.resp "" P.outbound.kept).outbound

/-! ## Runs -/

/-- How a call of a delivery is answered: never with an error. -/
def answers (C : Cluster β) : (c : Call) → c.Answer → Cluster β → Prop
  | .ledger c, r, C' => C.ledger.exec c = (r, C'.ledger) ∧ C'.redis = C.redis
  | .check _, r, C' => r = .ok .allow ∧ C' = C
  | .recordFetch _, r, C' => (∃ wake, r = .ok wake) ∧ C' = C
  | .recordFailure .., r, C' => (∃ wake, r = .ok wake) ∧ C' = C
  | .fetch _, r, C' => r = .ok P.resp ∧ C' = C
  | .adapterExtract .., r, C' => (r = .ok none ∨ r = .ok (some P.doc)) ∧ C' = C
  | .parse _, r, C' => r = .ok P.doc ∧ C' = C
  | .storeWrite _, r, C' => (∃ blobPath, r = .ok blobPath) ∧ C' = C
  | .ack a, r, C' => (D.frontier P.pod).ack a C.redis = (r, C'.redis) ∧ C'.ledger = C.ledger
  | .advanceWake host untilMs, r, C' =>
    (D.frontier P.pod).advanceWake host untilMs C.redis = (r, C'.redis) ∧ C'.ledger = C.ledger
  | .submitBatch es, r, C' =>
    (∃ order nowMs, (D.frontier P.pod).submitBatch D.wire D.bloom order nowMs es C.redis =
      (r, C'.redis)) ∧ (∃ outcome, r = .ok outcome) ∧ C'.ledger = C.ledger
  | .now, _, C' => C' = C

/-- What goes on between the calls; `publishCut` is a publisher that dies before it commits. -/
inductive Env (C : Cluster β) : Cluster β → Prop
  | claim (k : ShardKey) (now leaseMs : Int) :
      Env C { C with redis := onShard k (fun s => (s.claim now leaseMs).1) C.redis }
  | promote (k : ShardKey) (now : Int) (limit : Nat) :
      Env C { C with redis := onShard k (fun s => (s.promote now limit).1) C.redis }
  | reclaim (k : ShardKey) (now : Int) (limit : Nat) :
      Env C { C with redis := onShard k (fun s => (s.reclaim now limit).1) C.redis }
  | publish (k : Pod D) (order : HashOrder) (nowMs : Int) :
      P.deps.linkDispatch = .durableOutbox → Env C (D.publishOneBatch k order nowMs C).2
  | publishCut (k : Pod D) (order : HashOrder) (nowMs : Int) :
      P.deps.linkDispatch = .durableOutbox →
      Env C { C with redis := (D.publishOneBatch k order nowMs C).2.redis }

def world : World (Cluster β) Call Call.Answer where
  env := P.Env
  act := P.answers

end Page

/-- The cluster, the delivery under way, and whether an ack has executed its `ZREM`. -/
structure Recovery (β : Type) where
  cluster : Cluster β
  running : Option (Pipe Unit)
  acked : Bool

namespace Recovery

inductive Label
  | deliver
  | call (c : Call)
  | crash
  | crashInAck
  | env

variable {D : Deployment β} (P : Page D)

/-- `crash` cuts a delivery between two calls, `crashInAck` between `ZREM` and `HDEL`. -/
inductive Step : Recovery β → Label → Recovery β → Prop
  | deliver {C : Cluster β} {now leaseMs : Int} {e : UrlEntry} {h : Host} :
      parseClaimValue D.wire ((C.redis.shards P.shard).claim now leaseMs).2 =
        .ok (.claimed P.urlId e h) →
      Step ⟨C, none, false⟩ .deliver
        ⟨{ C with redis := onShard P.shard (fun s => (s.claim now leaseMs).1) C.redis },
          some (UrlPipeline.run ⟨P.deps, e, encodeAttempt P.shard P.urlId h⟩), false⟩
  | call {C C' : Cluster β} {c : Call} {k : c.Answer → Pipe Unit} {r : c.Answer} {acked : Bool} :
      P.answers C c r C' →
      Step ⟨C, some (.call c k), acked⟩ (.call c) ⟨C', some (k r), acked || c.isAck⟩
  | crash {C : Cluster β} {p : Pipe Unit} {acked : Bool} :
      Step ⟨C, some p, acked⟩ .crash ⟨C, none, acked⟩
  | crashInAck {C : Cluster β} {a : String} {k : (Call.ack a).Answer → Pipe Unit} {acked : Bool}
      {shard : ShardKey} {l : Lease} : decodeAttempt a = .ok (shard, l.urlId, l.host) →
      Step ⟨C, some (.call (.ack a) k), acked⟩ .crashInAck
        ⟨{ C with redis := onShard shard (·.ackZrem l) C.redis }, none, true⟩
  | env {C C' : Cluster β} {p : Option (Pipe Unit)} {acked : Bool} :
      P.Env C C' → Step ⟨C, p, acked⟩ .env ⟨C', p, acked⟩

end Recovery

/-! ## What a run leaves -/

/-- What is compared of the page's own row: status, retry count, content hash, depth. -/
abbrev RowSummary := UrlStatus × Nat × Option UInt64 × UInt32

def UrlRow.summary (r : UrlRow) : RowSummary := (r.status, r.retryCount, r.contentHash, r.depth)

/-- An outbox row without its id and its mark. -/
structure OutboxLink where
  url : String
  depth : UInt32
  discoveredFrom : Option String
  parentAttemptId : String
deriving DecidableEq, Repr

def OutboxRow.link (r : OutboxRow) : OutboxLink :=
  ⟨r.url, r.depth, r.discoveredFrom, r.parentAttemptId⟩

/-- The page's row, the rows of all other URLs, the page's `succeeded` history rows and its outbox
rows. -/
structure LedgerResult where
  row : Option RowSummary
  skips : String → Option UrlRow
  succeeded : Nat
  outbox : List OutboxLink

/-- The filters, and the payloads of all ids but the page's own. -/
structure FrontierResult (β : Type) where
  seen : ShardKey → β
  payloads : ShardKey → UrlId → Option Bytes

/-- A `succeeded` row of the URL. -/
def HistoryRow.isSuccess (url : String) (r : HistoryRow) : Bool :=
  r.url == url && match r.event with
    | .succeeded _ => true
    | _ => false

/-- The rows of a parent. -/
def OutboxTable.linksOf (t : OutboxTable) (url : String) : List OutboxLink :=
  (t.rows.filter fun r => r.parentUrl == url).map OutboxRow.link

namespace Page

variable {D : Deployment β} (P : Page D)

def deliveries (C : Cluster β) : LTS (Recovery β) Recovery.Label where
  init S := S = ⟨C, none, false⟩
  step := Recovery.Step P

/-- The page waits in the frontier and nothing of it has succeeded before. -/
structure Fresh (C : Cluster β) : Prop where
  pinned : (C.redis.shards P.shard).Pinned D.bloom D.wire P.urlId P.entry P.host
  history : ∀ r ∈ C.ledger.history, r.url = P.url →
    r.attemptId = none ∧ ∀ path, r.event ≠ .succeeded path
  outbox : ∀ r ∈ C.ledger.outbox.rows, r.parentUrl ≠ P.url

/-- The publishers have nothing left to do. -/
def Dispatched (C : Cluster β) : Prop :=
  P.deps.linkDispatch = .durableOutbox → C.ledger.outbox.unpublished = []

def ledgerResult (l : Ledger) : LedgerResult where
  row := (l.rows P.url).map UrlRow.summary
  skips u := if u = P.url then none else l.rows u
  succeeded := l.history.countP (HistoryRow.isSuccess P.url)
  outbox := l.outbox.linksOf P.url

/-- What the shards hold once `es` is submitted to them. -/
def frontierAfter (K : ShardKey → β × (UrlId → Option Bytes)) (es : List UrlEntry) :
    FrontierResult β where
  seen k := (D.bloom.putAll (K k) (itemsOn D.policy D.wire k es)).1
  payloads k u := if k = P.shard ∧ u = P.urlId then none
    else (D.bloom.putAll (K k) (itemsOn D.policy D.wire k es)).2 u

def frontierResult (R : Redis β) : FrontierResult β := P.frontierAfter (fun k => (R.shards k).known) []

/-! ## What it is going to leave -/

def commit (t : OutboxTable) : OutboxTable := P.links.foldl (.insert P.url P.attemptId) t

/-- The row of a link that is too deep. -/
def skipRow : UrlRow :=
  ⟨.skipped .depth, 0, none, none, P.entry.depth + 1, P.deps.runId, some P.url⟩

def attempted (h : HistoryRow) : Bool := h.url == P.url && h.attemptId == some P.attemptId

def ledgerTarget (l : Ledger) : LedgerResult where
  row := some (.succeeded, 0, some (contentHash P.resp.body), P.entry.depth)
  skips u := if u = P.url then none
    else (l.rows u).or (if u ∈ P.outbound.depthSkipped.map (·.url.asStr) then some P.skipRow else none)
  succeeded := l.history.countP (HistoryRow.isSuccess P.url) +
    if l.history.any P.attempted then 0 else 1
  outbox := (P.commit l.outbox).linksOf P.url

/-- What the publisher reads of some rows. -/
def readable (D : Deployment β) (rows : List OutboxRow) : List UrlEntry :=
  rows.filterMap fun r => (r.read D.parse).toOption

/-- The links that are still to be submitted, or submitted again. -/
def pending (t : OutboxTable) : List UrlEntry :=
  match P.deps.linkDispatch with
  | .direct => P.outbound.kept
  | .durableOutbox => readable D (P.commit t).unpublished

def frontierTarget (C : Cluster β) : FrontierResult β :=
  P.frontierAfter (fun k => (C.redis.shards k).known) (P.pending C.ledger.outbox)

end Page

end Crawlrs
