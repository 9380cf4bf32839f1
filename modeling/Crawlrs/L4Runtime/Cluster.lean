import Crawlrs.L4Runtime.Outbox

/-!
# A deployment of several pods

`R` pods share one Redis and one ledger; pod `k` owns the shards
`derive_owned_shards` gives its ordinal. A `Visit` is one page that fetches,
parses and stores on some pod: `visit` runs its pipeline to the end, frontier
calls answered by that pod's frontier.

* `mem_owned`: pod `k` owns the shards congruent to `k` modulo `R`.
* `visit_direct`: what the run of a page does under `Direct`, up to calls that
  submit nothing.
* `visit_outbox`: the same under `DurableOutbox`.
-/
namespace Crawlrs

variable {β : Type}

open RedisFrontier (Settled SameSeen)

structure Deployment (β : Type) where
  wire : Wire
  bloom : Sketch UrlId β
  parse : ParseUrl
  policy : HostHashShardPolicy
  replicas : UInt32
  replicas_pos : 0 < replicas.toNat
  replicas_le : replicas.toNat ≤ policy.numShards.toNat
  scope : CrawlScope
  runId : String

/-- An ordinal of the deployment. -/
structure Pod (D : Deployment β) where
  ordinal : UInt32
  lt : ordinal.toNat < D.replicas.toNat

namespace Deployment

variable (D : Deployment β)

/-- `owned_shards` of the pod, as `factory::build` derives it. -/
def owned (k : Pod D) : List ShardKey :=
  match deriveOwnedShards D.policy.numShards none (some k.ordinal) (some D.replicas) with
  | .ok ks => ks
  | .error _ => []

def frontier (k : Pod D) : RedisFrontier := ⟨D.policy, D.owned k, D.scope⟩

/-- The entry has a host, and its shard is one of the pod's. -/
def Owns (k : Pod D) (e : UrlEntry) : Prop :=
  (D.policy.shardKey e.url).toNat % D.replicas.toNat = k.ordinal.toNat ∧ e.url.host.isSome

/-- Admitted, already seen, or rejected by quota, in the shard the URL's host hashes to. -/
def IsSettled (R : Redis β) (e : UrlEntry) : Prop :=
  Settled D.bloom R (D.policy.shardKey e.url) (D.wire.idOf e)

variable {D}

theorem deriveOwnedShards_pod (k : Pod D) :
    deriveOwnedShards D.policy.numShards none (some k.ordinal) (some D.replicas) =
      .ok (strided k.ordinal.toNat D.policy.numShards.toNat D.replicas.toNat) := by
  have hlt : k.ordinal.toNat < ((some D.replicas).getD D.policy.numShards).toNat := k.lt
  exact deriveOwnedShards_strided hlt D.replicas_le

theorem mem_owned (k : Pod D) {x : ShardKey} (hx : x.toNat < D.policy.numShards.toNat) :
    x ∈ D.owned k ↔ x.toNat % D.replicas.toNat = k.ordinal.toNat := by
  rw [owned, deriveOwnedShards_pod]
  simp only [mem_strided_of_lt D.policy.numShards.toNat_lt k.lt, hx, true_and]

theorem accepts_iff (k : Pod D) (e : UrlEntry) : (D.frontier k).Accepts e ↔ D.Owns k e := by
  simp only [RedisFrontier.Accepts, frontier, Owns, mem_owned k (D.policy.shardKey_lt e.url)]

end Deployment

structure Cluster (β : Type) where
  redis : Redis β
  ledger : Ledger

/-! ## One page -/

/-- A page whose fetch, parse and store write succeed on `pod`, with what the run reads from its
surroundings: the wake plan, the clock, and the order of the batch's hash map. -/
structure Visit (D : Deployment β) where
  pod : Pod D
  pipeline : UrlPipeline
  resp : FetchResponse
  doc : ParsedDocument
  blobPath : String
  wake : Except Error NextWake
  clock : Int
  nowMs : Int
  order : HashOrder
  allowed : pipeline.blocked = false
  clean : classifyStatus resp.status = none

namespace Visit

variable {D : Deployment β} (v : Visit D)

/-- The page's kept outbound list. -/
def kept : List UrlEntry :=
  (computeOutbound v.pipeline.entry v.doc v.pipeline.deps.crawlScope.depthCap).kept

/-- How the calls of the page's run are answered. -/
def serve (C : Cluster β) : (c : Call) → c.Answer × Cluster β
  | .ledger c => ((C.ledger.exec c).1, { C with ledger := (C.ledger.exec c).2 })
  | .check _ => (.ok .allow, C)
  | .recordFetch _ => (v.wake, C)
  | .recordFailure .. => (v.wake, C)
  | .fetch _ => (.ok v.resp, C)
  | .adapterExtract .. => (.ok (some v.doc), C)
  | .parse _ => (.ok v.doc, C)
  | .storeWrite _ => (.ok v.blobPath, C)
  | .ack a =>
    let r := (D.frontier v.pod).ack a C.redis
    (r.1, { C with redis := r.2 })
  | .advanceWake host untilMs =>
    let r := (D.frontier v.pod).advanceWake host untilMs C.redis
    (r.1, { C with redis := r.2 })
  | .submitBatch es =>
    let r := (D.frontier v.pod).submitBatch D.wire D.bloom v.order v.nowMs es C.redis
    (r.1, { C with redis := r.2 })
  | .now => (v.clock, C)

/-- The cluster after the page's run. -/
def visit (C : Cluster β) : Cluster β := (Prog.interp v.serve v.pipeline.run C).2

end Visit

/-! ### What the phases do to the cluster -/

/-- Nothing is submitted and nothing enters the outbox. -/
structure Cluster.Idle (C C' : Cluster β) : Prop where
  redis : SameSeen C.redis C'.redis
  outbox : C'.ledger.outbox = C.ledger.outbox

namespace Cluster.Idle

variable {C C' C'' : Cluster β}

theorem refl (C : Cluster β) : Cluster.Idle C C := ⟨⟨fun _ => rfl, rfl⟩, rfl⟩

theorem trans (h : Cluster.Idle C C') (h' : Cluster.Idle C' C'') : Cluster.Idle C C'' :=
  ⟨h.redis.trans h'.redis, h'.outbox.trans h.outbox⟩

end Cluster.Idle

namespace Visit

variable {D : Deployment β} (v : Visit D) (C : Cluster β)

theorem idle_recordDiscoveredSkip (url : CanonicalUrl) (depth : UInt32)
    (discoveredFrom : Option CanonicalUrl) (reason : SkipReason) :
    C.Idle (Prog.interp v.serve
      (v.pipeline.recordDiscoveredSkip url depth discoveredFrom reason) C).2 := by
  refine ⟨⟨fun _ => rfl, rfl⟩, ?_⟩
  exact C.ledger.markDiscoveredSkipped_outbox _ _ _ _ _

theorem idle_ack : C.Idle (Prog.interp v.serve v.pipeline.ack C).2 :=
  ⟨RedisFrontier.sameSeen_ack _ _, rfl⟩

/-- A wake plan leaves the ledger alone. -/
theorem idle_applyWakePlan (plan : Except Error NextWake) :
    C.Idle (Prog.interp v.serve (UrlPipeline.applyWakePlan plan) C).2 ∧
      (Prog.interp v.serve (UrlPipeline.applyWakePlan plan) C).2.ledger = C.ledger := by
  cases plan with
  | error e => exact ⟨.refl C, rfl⟩
  | ok next =>
    simp only [UrlPipeline.applyWakePlan, Prog.interp_bind]
    split
    · exact ⟨.refl C, rfl⟩
    · exact ⟨⟨RedisFrontier.sameSeen_advanceWake _ _ _, rfl⟩, rfl⟩

theorem interp_politenessAllows :
    Prog.interp v.serve v.pipeline.politenessAllows C = (true, C) := by
  simp only [UrlPipeline.politenessAllows, v.allowed, Bool.false_eq_true, if_false]
  rfl

theorem interp_fetch : (Prog.interp v.serve v.pipeline.fetch C).1 = some v.resp ∧
    C.Idle (Prog.interp v.serve v.pipeline.fetch C).2 ∧
      (Prog.interp v.serve v.pipeline.fetch C).2.ledger = C.ledger := by
  have hw := idle_applyWakePlan v C v.wake
  have he : Prog.interp v.serve v.pipeline.fetch C =
      (some v.resp, (Prog.interp v.serve (UrlPipeline.applyWakePlan v.wake) C).2) := by
    simp only [UrlPipeline.fetch, Prog.interp_bind, await, Prog.interp_perform, serve, v.clean,
      Prog.interp_pure]
  rw [he]
  exact ⟨rfl, hw⟩

theorem interp_extract : Prog.interp v.serve (v.pipeline.extract v.resp) C = (some v.doc, C) := by
  unfold UrlPipeline.extract
  split <;> rfl

/-- The direct dispatch of the kept links, with the skips it records. -/
theorem interp_dispatch (outbound : List UrlEntry) :
    ∃ C' : Cluster β, C'.Idle (Prog.interp v.serve (v.pipeline.dispatch outbound) C).2 ∧
      C'.ledger.outbox = C.ledger.outbox ∧ C'.redis =
        if v.pipeline.deps.linkDispatch = .direct then
          ((D.frontier v.pod).submitBatch D.wire D.bloom v.order v.nowMs outbound C.redis).2
        else C.redis := by
  unfold UrlPipeline.dispatch
  by_cases hd : v.pipeline.deps.linkDispatch = .direct
  · by_cases hne : outbound = []
    · subst hne
      exact ⟨C, by simpa using .refl C, rfl, by simp [RedisFrontier.submitBatch]⟩
    · simp only [hd, hne, ne_eq, not_false_eq_true, and_self, if_true, UrlPipeline.dispatchDirect,
        Prog.interp_bind, await, Prog.interp_perform]
      refine ⟨(v.serve C (.submitBatch outbound)).2, ?_, rfl, rfl⟩
      cases (v.serve C (.submitBatch outbound)).1 with
      | error e => exact .refl _
      | ok outcome =>
        exact Prog.interp_each (Q := fun C' => (v.serve C (.submitBatch outbound)).2.Idle C') _
          (fun rejected C' h => h.trans (v.idle_recordDiscoveredSkip C' _ _ _ _)) (.refl _)
  · exact ⟨C, by simpa [hd] using .refl C, rfl, by simp [hd]⟩

/-- The end of the page's run: the commit and its rows, the dispatch, and calls that submit
nothing. -/
theorem interp_finalize {row : UrlRow} (hrow : C.ledger.rows v.pipeline.url.asStr = some row)
    (partition : OutboundPartition) :
    let C' := (Prog.interp v.serve (v.pipeline.finalize v.resp v.doc partition) C).2
    C'.ledger.outbox = (v.pipeline.successRecord v.resp v.blobPath partition.kept).outbound.foldl
        (.insert v.pipeline.url.asStr v.pipeline.attemptId) C.ledger.outbox ∧
      ∃ R R', SameSeen C.redis R ∧ SameSeen R' C'.redis ∧ R' =
        if v.pipeline.deps.linkDispatch = .direct then
          ((D.frontier v.pod).submitBatch D.wire D.bloom v.order v.nowMs partition.kept R).2
        else R := by
  intro C'
  let record := v.pipeline.successRecord v.resp v.blobPath partition.kept
  let C1 := (v.serve C (.ledger (.markSucceeded record))).2
  let C2 := (Prog.interp v.serve (Prog.each (fun child => v.pipeline.recordDiscoveredSkip child.url
    child.depth child.discoveredFrom .depth) partition.depthSkipped) C1).2
  let C3 := (Prog.interp v.serve (v.pipeline.dispatch partition.kept) C2).2
  have hstore : v.serve C (.storeWrite (v.pipeline.storeRecord v.resp v.doc)) =
      (.ok v.blobPath, C) := rfl
  have hC' : C' = (Prog.interp v.serve v.pipeline.ack C3).2 := by
    simp only [C', UrlPipeline.finalize, Prog.interp_bind, await, Prog.interp_perform, hstore, C3,
      C2, C1, record]
  have h1 : C1.ledger.outbox = record.outbound.foldl
      (.insert v.pipeline.url.asStr v.pipeline.attemptId) C.ledger.outbox :=
    Ledger.markSucceeded_outbox hrow
  have h2 : C1.Idle C2 := Prog.interp_each (Q := fun C => C1.Idle C) _
    (fun child C h => h.trans (v.idle_recordDiscoveredSkip C _ _ _ _)) (.refl _)
  obtain ⟨C4, h3, hout, hredis⟩ := v.interp_dispatch C2 partition.kept
  have h4 : C3.Idle C' := hC' ▸ v.idle_ack C3
  refine ⟨?_, C2.redis, C4.redis, h2.redis, h3.redis.trans h4.redis, hredis⟩
  rw [h4.outbox, h3.outbox, hout, h2.outbox, h1]

/-- The whole run of a page. -/
theorem visit_spec : (v.visit C).ledger.outbox =
      (v.pipeline.successRecord v.resp v.blobPath v.kept).outbound.foldl
        (.insert v.pipeline.url.asStr v.pipeline.attemptId) C.ledger.outbox ∧
    ∃ R R', SameSeen C.redis R ∧ SameSeen R' (v.visit C).redis ∧ R' =
      if v.pipeline.deps.linkDispatch = .direct then
        ((D.frontier v.pod).submitBatch D.wire D.bloom v.order v.nowMs v.kept R).2
      else R := by
  let C1 := (Prog.interp v.serve v.pipeline.markAttempting C).2
  let C2 := (Prog.interp v.serve v.pipeline.fetch C1).2
  obtain ⟨hresp, hidle, hledger⟩ := v.interp_fetch C1
  have hvisit : v.visit C = (Prog.interp v.serve (v.pipeline.finalize v.resp v.doc
      (computeOutbound v.pipeline.entry v.doc v.pipeline.deps.crawlScope.depthCap)) C2).2 := by
    simp only [visit, UrlPipeline.run, Prog.interp_bind, interp_politenessAllows, if_true, hresp,
      C1, interp_extract, C2]
  have hout1 : C1.ledger.outbox = C.ledger.outbox := C.ledger.markAttempting_outbox _ _ _
  obtain ⟨row, hrow, -⟩ := hasStatus_markAttempting (l := C.ledger) (u := v.pipeline.url.asStr) rfl
    v.pipeline.deps.runId v.pipeline.entry.depth
  have hrow2 : C2.ledger.rows v.pipeline.url.asStr = some row := by
    rw [hledger]
    exact hrow
  obtain ⟨hout, R, R', hR, hR', heq⟩ := v.interp_finalize C2 hrow2
    (computeOutbound v.pipeline.entry v.doc v.pipeline.deps.crawlScope.depthCap)
  rw [hvisit]
  refine ⟨?_, R, R', hidle.redis.trans hR, hR', heq⟩
  rw [hout, hidle.outbox, hout1]
  rfl

end Visit

end Crawlrs
