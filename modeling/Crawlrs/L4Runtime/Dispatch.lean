import Crawlrs.L4Runtime.Drain

/-!
# Which links of a page reach the frontier

A page's kept links, after its run and, under `DurableOutbox`, after the pods'
publishers have run until none makes progress.

Both paths hand a list of links to one pod's `submit_batch`, which turns the
whole list down when one link is on another pod's shard.

* `Direct`: the list is the page's links, so it has to be one pod's, the page's.
* `DurableOutbox`: the list is a batch of the backlog. A batch that is no pod's
  stays where it is for good, and the ones behind it wait.
-/
namespace Crawlrs

variable {β : Type} {D : Deployment β}

open RedisFrontier (Settled SameSeen)

namespace Visit

variable (v : Visit D) (C : Cluster β)

/-- The row the page's commit writes for the link, unless there is one already. -/
abbrev IsRow (e : UrlEntry) (r : OutboxRow) : Prop :=
  OutboxTable.IsRow v.pipeline.url.asStr v.pipeline.attemptId e.url.asStr r

/-- The backlog the page's commit leaves. -/
def backlog : List OutboxRow := (v.visit C).ledger.outbox.unpublished

/-- What the outbox needs of a link the frontier does not know yet: it reads back as itself, no
earlier delivery has left a published row in its place, and no batch up to its row mixes pods. -/
structure LinkClear (e : UrlEntry) : Prop where
  reparse : D.parse e.url.asStr = .ok e.url
  unpublished : ∀ r ∈ C.ledger.outbox.rows, v.IsRow e r → r.published = false
  onePod : ∀ i p r, batchSize * i ≤ p → (v.backlog C)[p]? = some r → v.IsRow e r →
    D.OnePod (batch (v.backlog C) i)

/-! ## Direct -/

theorem settled_visit_iff_of_not_owns (hd : v.pipeline.deps.linkDispatch = .direct)
    (ho : ∃ e ∈ v.kept, ¬ D.Owns v.pod e) (e : UrlEntry) :
    D.IsSettled (v.visit C).redis e ↔ D.IsSettled C.redis e := by
  obtain ⟨-, R, R', hR, hR', heq⟩ := v.visit_spec C
  have hex : ∃ e ∈ v.kept, ¬ (D.frontier v.pod).Accepts e := by
    obtain ⟨e, he, hne⟩ := ho
    exact ⟨e, he, fun ha => hne ((Deployment.accepts_iff v.pod e).1 ha)⟩
  obtain ⟨err, herr⟩ := RedisFrontier.submitBatch_error (W := D.wire) (B := D.bloom) v.order v.nowMs
    R hex
  rw [if_pos hd, herr] at heq
  subst heq
  exact (hR'.settled _ _).trans (hR.settled _ _)

theorem settled_visit_of_owns (hd : v.pipeline.deps.linkDispatch = .direct)
    (ho : ∀ e ∈ v.kept, D.Owns v.pod e) : ∀ e ∈ v.kept, D.IsSettled (v.visit C).redis e := by
  intro e he
  obtain ⟨-, R, R', -, hR', heq⟩ := v.visit_spec C
  have hacc : ∀ e ∈ v.kept, (D.frontier v.pod).Accepts e :=
    fun e he => (Deployment.accepts_iff v.pod e).2 (ho e he)
  rw [if_pos hd] at heq
  subst heq
  exact (hR'.settled _ _).2 (RedisFrontier.submitBatch_settled v.order v.nowMs R hacc e he)

theorem settled_visit_mono (e : UrlEntry) (h : D.IsSettled C.redis e) :
    D.IsSettled (v.visit C).redis e := by
  obtain ⟨-, R, R', hR, hR', heq⟩ := v.visit_spec C
  have h1 : D.IsSettled R e := (hR.settled _ _).2 h
  refine (hR'.settled _ _).2 ?_
  rw [heq]
  split
  · exact h1.mono (RedisFrontier.submitBatch_grows v.order v.nowMs v.kept R)
  · exact h1

/-! ## DurableOutbox -/

/-- The filters only grow while the backlog is drained. -/
theorem grows_of_drain {C : Cluster β} {d : Drain D} (h : (Drain.drains D C).Reachable d) :
    C.redis.Grows D.bloom d.cluster.redis := by
  induction h with
  | init h0 =>
    have h0 : _ = (⟨C, []⟩ : Drain D) := h0
    subst h0
    exact .refl _
  | step _ hst ih =>
    cases hst with
    | lease k hne => exact ih
    | @finish _ _ k rows order nowMs hd =>
      by_cases hall : ∀ r ∈ rows, D.Ships k r
      · exact ih.trans (Deployment.ship_ok hall order nowMs _).2.2.1
      · rw [Deployment.ship_error hall order nowMs]
        exact ih
    | other hg ho => exact ih.trans hg

/-- Every kept link has a row after the commit. -/
theorem exists_row (hd : v.pipeline.deps.linkDispatch = .durableOutbox) :
    ∀ e ∈ v.kept, ∃ r ∈ (v.visit C).ledger.outbox.rows, v.IsRow e r ∧
      (r ∈ C.ledger.outbox.rows ∨ r.published = false) := by
  obtain ⟨hout, -⟩ := v.visit_spec C
  have hkept : (v.pipeline.successRecord v.resp v.blobPath v.kept).outbound = v.kept := by
    simp [UrlPipeline.successRecord, hd]
  rw [hkept] at hout
  rw [hout]
  exact OutboxTable.insert_tracked _ _ v.kept C.ledger.outbox

theorem settled_drain (hd : v.pipeline.deps.linkDispatch = .durableOutbox) {e : UrlEntry}
    (he : e ∈ v.kept) (hc : v.LinkClear C e) {d : Drain D}
    (hr : (Drain.drains D (v.visit C)).Reachable d) (hq : d.Quiescent) :
    D.IsSettled d.cluster.redis e := by
  obtain ⟨r, hmem, hrow, hp⟩ := v.exists_row C hd e he
  have hpub : r.published = false := hp.elim (fun hold => hc.unpublished r hold hrow) id
  have hU : r ∈ v.backlog C := List.mem_filter.2 ⟨hmem, by simp [hpub]⟩
  obtain ⟨p, hp⟩ := List.mem_iff_getElem?.1 hU
  obtain ⟨left, busy, hb⟩ := (inductive_backlog (v.visit C)).reachable d hr
  obtain ⟨e', hread, hs⟩ := hb.settled_before (v.visit C).ledger.outbox.unpublished_ids hq hp
    fun i hi => hc.onePod i p r hi hp hrow
  -- The row reads back as the link itself, and what is settled depends on the URL alone.
  have hurl : e'.url = e.url := by
    have h1 := OutboxRow.read_url hread
    rw [hrow.2.2, hc.reparse] at h1
    exact (Except.ok.inj h1).symm
  simpa [Deployment.IsSettled, Wire.idOf, hurl] using hs

/-- A batch no pod can ship stays unpublished, however long the publishers run. -/
theorem mixed_unpublished {d : Drain D} (hr : (Drain.drains D (v.visit C)).Reachable d) {i : Nat}
    (hi : batchSize * i < (v.backlog C).length) (hm : ¬ D.OnePod (batch (v.backlog C) i)) :
    ∀ r ∈ batch (v.backlog C) i, r ∈ d.cluster.ledger.outbox.unpublished := by
  intro r hrow
  obtain ⟨left, busy, hb⟩ := (inductive_backlog (v.visit C)).reachable d hr
  have hleft : i ∈ left := by
    by_contra hn
    exact hm (hb.onePod i hi hn)
  rw [hb.unpublished]
  exact List.mem_flatMap.2 ⟨i, hleft, hrow⟩

end Visit

/-! ## Both paths -/

/-- Every kept link of every page is settled once it has been dispatched. -/
def LinksReachFrontier : Prop :=
  ∀ (β : Type) (D : Deployment β) (v : Visit D) (C : Cluster β),
    (v.pipeline.deps.linkDispatch = .direct → ∀ e ∈ v.kept, D.IsSettled (v.visit C).redis e) ∧
    (v.pipeline.deps.linkDispatch = .durableOutbox → ∀ d, (Drain.drains D (v.visit C)).Reachable d →
      d.Quiescent → ∀ e ∈ v.kept, D.IsSettled d.cluster.redis e)

theorem kept_links_settled (D : Deployment β) (v : Visit D) (C : Cluster β) :
    (v.pipeline.deps.linkDispatch = .direct →
      ((∀ e ∈ v.kept, D.IsSettled (v.visit C).redis e) ↔
        (∀ e ∈ v.kept, D.Owns v.pod e) ∨ ∀ e ∈ v.kept, D.IsSettled C.redis e)) ∧
    (v.pipeline.deps.linkDispatch = .durableOutbox →
      ∀ d, (Drain.drains D (v.visit C)).Reachable d → d.Quiescent → ∀ e ∈ v.kept,
        D.IsSettled C.redis e ∨ v.LinkClear C e → D.IsSettled d.cluster.redis e) ∧
    (v.pipeline.deps.linkDispatch = .durableOutbox →
      ∀ d, (Drain.drains D (v.visit C)).Reachable d → ∀ i, batchSize * i < (v.backlog C).length →
        ¬ D.OnePod (batch (v.backlog C) i) →
          ∀ r ∈ batch (v.backlog C) i, r ∈ d.cluster.ledger.outbox.unpublished) := by
  refine ⟨fun hd => ⟨fun h => ?_, fun h => ?_⟩, fun hd d hr hq e he hc => ?_,
    fun _ d hr i hi hm => v.mixed_unpublished C hr hi hm⟩
  · by_cases ho : ∀ e ∈ v.kept, D.Owns v.pod e
    · exact Or.inl ho
    · right
      have ho : ∃ e ∈ v.kept, ¬ D.Owns v.pod e := by simpa using ho
      exact fun e he => (v.settled_visit_iff_of_not_owns C hd ho e).1 (h e he)
  · rcases h with h | h
    · exact v.settled_visit_of_owns C hd h
    · exact fun e he => v.settled_visit_mono C e (h e he)
  · rcases hc with hc | hc
    · exact (v.settled_visit_mono C e hc).mono (Visit.grows_of_drain hr)
    · exact v.settled_drain C hd he hc hr hq

/-! ### Two pods, two shards -/

instance (R : Redis β) (e : UrlEntry) : Decidable (D.IsSettled R e) :=
  inferInstanceAs (Decidable (D.bloom.has (R.shards (D.policy.shardKey e.url)).seen (D.wire.idOf e) =
    true ∨ (D.policy.shardKey e.url, D.wire.idOf e) ∈ R.rejected))

/-- `a.test` is on shard 0 and `b.test` on shard 1. -/
def Deployment.sample : Deployment (List UrlId) where
  wire := .sample
  bloom := .exact
  parse s :=
    if s = "https://a.test/" then .ok UrlEntry.seedA.url
    else if s = "https://a.test/b" then .ok UrlEntry.seedA'.url
    else if s = "https://b.test/" then .ok UrlEntry.seedB.url
    else .error "relative URL without a base"
  policy := ⟨2, HostHashShardPolicy.two_shards⟩
  replicas := 2
  replicas_pos := by decide
  replicas_le := by decide
  scope := ⟨none, none, fun _ => none⟩
  runId := "run-1"

theorem UrlEntry.seedA_host : UrlEntry.seedA.url.host = some "a.test" := rfl

theorem Deployment.sample_first : (0 : UInt32).toNat < Deployment.sample.replicas.toNat := by decide

/-- The page `https://a.test/` with some links, on pod 0. -/
def Visit.sample (dispatch : LinkDispatch) (links : List CanonicalUrl) : Visit .sample where
  pod := ⟨0, Deployment.sample_first⟩
  pipeline := ⟨{ WorkerDeps.sample with linkDispatch := dispatch }, .seedA,
    "s0|50e31edfccebf8eb88f3065e49155e2c|a.test"⟩
  resp := ⟨UrlEntry.seedA.url, 200, [], []⟩
  doc := ⟨UrlEntry.seedA.url, 200, none, none, links⟩
  blobPath := "blobs/1"
  wake := .ok ⟨"a.test", 0⟩
  clock := 0
  nowMs := 0
  order := ⟨id, HashOrder.perm_id⟩
  allowed := rfl
  clean := classifyStatus_ok

/-- Empty shards and an empty ledger. -/
def Cluster.fresh : Cluster (List UrlId) := ⟨⟨fun _ => .fresh [], []⟩, .empty⟩

/-- The page with one link, to its own host, through the outbox. -/
def Visit.sampleOwn : Visit .sample := .sample .durableOutbox [UrlEntry.seedA'.url]

/-- The cluster once pod 0 has made one publish call. -/
def Cluster.sampleDrained : Cluster (List UrlId) :=
  (Deployment.sample.publishOneBatch Visit.sampleOwn.pod ⟨id, HashOrder.perm_id⟩ 0
    (Visit.sampleOwn.visit .fresh)).2

theorem sampleOwn_linkClear : ∀ e ∈ Visit.sampleOwn.kept, Visit.sampleOwn.LinkClear .fresh e := by
  have hkept : Visit.sampleOwn.kept =
      [⟨UrlEntry.seedA'.url, 1, some UrlEntry.seedA.url⟩] := by decide +kernel
  have hback : Visit.sampleOwn.backlog .fresh = [⟨1, "https://a.test/b", 1, some "https://a.test/",
      "https://a.test/", "s0|50e31edfccebf8eb88f3065e49155e2c|a.test", false⟩] := by decide +kernel
  rw [hkept]
  intro e he
  rw [List.mem_singleton.1 he]
  refine ⟨by decide, by simp [Cluster.fresh, Ledger.empty, OutboxTable.empty], ?_⟩
  intro i p r hi hp _
  refine ⟨Visit.sampleOwn.pod, fun r hr => ?_⟩
  have hr := block_subset hr
  rw [hback] at hr
  rw [List.mem_singleton.1 hr]
  exact ⟨⟨UrlEntry.seedA'.url, 1, some UrlEntry.seedA.url⟩, by decide +kernel, by decide +kernel, rfl⟩

/-- Pod 0 drains the backlog, and the link is in the filter of its shard. -/
theorem kept_links_settled_drained :
    (Drain.drains .sample (Visit.sampleOwn.visit .fresh)).Reachable ⟨.sampleDrained, []⟩ ∧
      Drain.Quiescent (D := .sample) ⟨.sampleDrained, []⟩ ∧
      ∀ e ∈ Visit.sampleOwn.kept, Deployment.sample.IsSettled Cluster.sampleDrained.redis e := by
  have hempty : Cluster.sampleDrained.ledger.outbox.leaseBatch [] batchSize = [] := by
    decide +kernel
  have hr : (Drain.drains .sample (Visit.sampleOwn.visit .fresh)).Reachable ⟨.sampleDrained, []⟩ :=
    Drain.reachable_publish (.init rfl) _ _ _
  have hq : Drain.Quiescent (D := .sample) ⟨.sampleDrained, []⟩ :=
    ⟨rfl, fun k order nowMs => by simp [Deployment.publishOneBatch, hempty]⟩
  refine ⟨hr, hq, fun e he => ?_⟩
  exact (kept_links_settled .sample Visit.sampleOwn .fresh).2.1 rfl _ hr hq e he
    (Or.inr (sampleOwn_linkClear e he))

/-- A link to the page's own host is lost with the link to the other pod's. -/
theorem not_linksReachFrontier : ¬ LinksReachFrontier := by
  intro h
  have hlost : ¬ ∀ e ∈ (Visit.sample .direct [UrlEntry.seedA'.url, UrlEntry.seedB.url]).kept,
      Deployment.sample.IsSettled ((Visit.sample .direct
        [UrlEntry.seedA'.url, UrlEntry.seedB.url]).visit .fresh).redis e := by decide +kernel
  exact hlost ((h _ _ _ _).1 rfl)

end Crawlrs
