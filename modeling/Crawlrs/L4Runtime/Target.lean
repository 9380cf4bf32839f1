import Crawlrs.L4Runtime.Redelivery

/-!
# What a delivery is heading for

No call of a delivery and nothing that goes on between two calls moves
`ledgerTarget` or `frontierTarget`: attempt ids are stable, the constraints of
the tables absorb what is inserted twice and the filter what is submitted twice.

* `sameTarget_answers`: the calls of a delivery.
* `sameTarget_env`: the scheduler, other claims, and the publishers.
-/
namespace Crawlrs

variable {β : Type}

open RedisFrontier (itemsOn onShard)

namespace Ledger

/-- A row without attempt id is always appended. -/
theorem insertHistory_none (l : Ledger) (url runId : String) (event : Event) :
    (l.insertHistory ⟨url, runId, event, none⟩).history = l.history ++ [⟨url, runId, event, none⟩] := by
  simp [insertHistory]

theorem insertHistory_history (l : Ledger) (url runId : String) (event : Event) (a : String) :
    (l.insertHistory ⟨url, runId, event, some a⟩).history =
      if l.history.any fun h => h.url == url && h.attemptId == some a then l.history
      else l.history ++ [⟨url, runId, event, some a⟩] := by
  unfold insertHistory
  by_cases h : (l.history.any fun h => h.url == url && h.attemptId == some a) = true
  · simp [h]
  · simp [h]

end Ledger

namespace OutboxTable

/-- The batch of a publish call that overlaps with no other. -/
def head (t : OutboxTable) : List OutboxRow := t.unpublished.take batchSize

def publishHead (t : OutboxTable) : OutboxTable := t.markPublished (t.head.map OutboxRow.id)

end OutboxTable

namespace Page

variable {D : Deployment β} {P : Page D}

/-! ## The ledger -/

theorem depthSkipped_fields {e : UrlEntry} (h : e ∈ P.outbound.depthSkipped) :
    e.depth = P.entry.depth + 1 ∧ e.discoveredFrom = some P.entry.url := by
  simp only [outbound, computeOutbound, List.mem_filter, List.mem_map] at h
  obtain ⟨⟨url, -, rfl⟩, -⟩ := h
  exact ⟨rfl, rfl⟩

theorem ledgerTarget_ext {l l' : Ledger} (hrows : ∀ u, u ≠ P.url → l'.rows u = l.rows u)
    (hhist : (P.ledgerTarget l').succeeded = (P.ledgerTarget l).succeeded)
    (hout : (P.commit l'.outbox).linksOf P.url = (P.commit l.outbox).linksOf P.url) :
    P.ledgerTarget l' = P.ledgerTarget l := by
  have hskips : (P.ledgerTarget l').skips = (P.ledgerTarget l).skips := by
    funext u
    by_cases hu : u = P.url
    · simp [ledgerTarget, hu]
    · simp [ledgerTarget, hu, hrows u hu]
  have h1 : P.ledgerTarget l' = ⟨(P.ledgerTarget l').row, (P.ledgerTarget l').skips,
      (P.ledgerTarget l').succeeded, (P.ledgerTarget l').outbox⟩ := rfl
  rw [h1, hskips, hhist]
  exact congrArg _ hout

theorem ledgerTarget_markAttempting (l : Ledger) (runId : String) (depth : UInt32) :
    P.ledgerTarget (l.markAttempting P.entry.url runId depth).2 = P.ledgerTarget l := by
  refine ledgerTarget_ext (fun u hu => ?_) ?_ ?_
  · exact l.exec_other (.markAttempting P.entry.url runId depth) hu
  · have hh : (l.markAttempting P.entry.url runId depth).2.history =
        l.history ++ [⟨P.url, runId, .attempted, none⟩] := Ledger.insertHistory_none _ _ _ _
    simp [ledgerTarget, hh, HistoryRow.isSuccess, attempted]
  · rw [Ledger.markAttempting_outbox]

theorem ledgerTarget_markSucceeded (l : Ledger) (path : String) :
    P.ledgerTarget (l.markSucceeded (P.pipeline.successRecord P.resp path P.outbound.kept)).2 =
      P.ledgerTarget l := by
  cases hr : l.rows P.url with
  | none =>
    have hl : (l.markSucceeded (P.pipeline.successRecord P.resp path P.outbound.kept)).2 = l := by
      have hr : l.rows (P.pipeline.successRecord P.resp path P.outbound.kept).url.asStr = none := hr
      simp [Ledger.markSucceeded, hr]
    rw [hl]
  | some row =>
    have hr : l.rows (P.pipeline.successRecord P.resp path P.outbound.kept).url.asStr = some row := hr
    refine ledgerTarget_ext (fun u hu => ?_) ?_ ?_
    · exact l.exec_other (.markSucceeded (P.pipeline.successRecord P.resp path P.outbound.kept)) hu
    · have hh : (l.markSucceeded (P.pipeline.successRecord P.resp path P.outbound.kept)).2.history =
          if l.history.any P.attempted then l.history
          else l.history ++ [⟨P.url, row.lastRunId, .succeeded path, some P.attemptId⟩] := by
        simp only [Ledger.markSucceeded, hr]
        exact Ledger.insertHistory_history _ _ _ _ _
      simp only [ledgerTarget, hh]
      by_cases hany : l.history.any P.attempted = true
      · simp [hany]
      · simp [hany, HistoryRow.isSuccess, attempted]
    · rw [Ledger.markSucceeded_outbox hr]
      have hidem : (P.commit (P.commit l.outbox)).rows = (P.commit l.outbox).rows :=
        OutboxTable.foldl_insert_idem P.url P.attemptId P.links l.outbox
      have hagain : (P.commit (P.commit l.outbox)).linksOf P.url =
          (P.commit l.outbox).linksOf P.url := by
        unfold OutboxTable.linksOf
        rw [hidem]
      exact hagain

theorem ledgerTarget_skip (l : Ledger) {e : UrlEntry} (he : e ∈ P.outbound.depthSkipped) :
    P.ledgerTarget (l.markDiscoveredSkipped e.url P.deps.runId e.depth e.discoveredFrom .depth).2 =
      P.ledgerTarget l := by
  obtain ⟨hd, hf⟩ := depthSkipped_fields he
  cases hr : l.rows e.url.asStr with
  | some row => rw [Ledger.markDiscoveredSkipped_some hr]
  | none =>
    have hl : (l.markDiscoveredSkipped e.url P.deps.runId e.depth e.discoveredFrom .depth).2 =
        l.setRow e.url.asStr P.skipRow := by
      simp only [Ledger.markDiscoveredSkipped, hr, hd, hf]
      rfl
    have hmem : e.url.asStr ∈ P.outbound.depthSkipped.map (·.url.asStr) := List.mem_map.2 ⟨e, he, rfl⟩
    have hskips : (P.ledgerTarget (l.setRow e.url.asStr P.skipRow)).skips =
        (P.ledgerTarget l).skips := by
      funext u
      by_cases hu : u = e.url.asStr
      · subst hu
        simp only [ledgerTarget, Ledger.setRow_rows, Function.update_self, hr, if_pos hmem]
        rfl
      · simp [ledgerTarget, hu]
    rw [hl]
    have h1 : P.ledgerTarget (l.setRow e.url.asStr P.skipRow) = ⟨(P.ledgerTarget l).row,
        (P.ledgerTarget (l.setRow e.url.asStr P.skipRow)).skips, (P.ledgerTarget l).succeeded,
        (P.ledgerTarget l).outbox⟩ := rfl
    rw [h1, hskips]

theorem commit_rows_of_conflicts {t : OutboxTable}
    (h : ∀ e ∈ P.links, t.conflicts P.url P.attemptId e.url.asStr = true) :
    (P.commit t).rows = t.rows := OutboxTable.foldl_insert_of_conflicts h

/-! ## The frontier -/

theorem frontierAfter_congr {K K' : ShardKey → β × (UrlId → Option Bytes)}
    (h1 : ∀ k, (K' k).1 = (K k).1)
    (h2 : ∀ k u, ¬ (k = P.shard ∧ u = P.urlId) → (K' k).2 u = (K k).2 u) (es : List UrlEntry) :
    P.frontierAfter K' es = P.frontierAfter K es := by
  unfold frontierAfter
  congr 1
  · funext k
    exact Sketch.putAll_fst (h1 k)
  · funext k u
    by_cases hk : k = P.shard ∧ u = P.urlId
    · rw [if_pos hk, if_pos hk]
    · rw [if_neg hk, if_neg hk]
      exact Sketch.putAll_snd (h1 k) (h2 k u hk)

/-- What has been submitted is not pending. -/
theorem frontierAfter_submitted (K : ShardKey → β × (UrlId → Option Bytes)) (es es' : List UrlEntry) :
    P.frontierAfter (fun k => D.bloom.putAll (K k) (itemsOn D.policy D.wire k es)) es' =
      P.frontierAfter K (es ++ es') := by
  simp only [frontierAfter, RedisFrontier.itemsOn_append, Sketch.putAll_append]

/-- It may be submitted once more. -/
theorem frontierAfter_again (K : ShardKey → β × (UrlId → Option Bytes)) (es es' : List UrlEntry) :
    P.frontierAfter (fun k => D.bloom.putAll (K k) (itemsOn D.policy D.wire k es)) (es ++ es') =
      P.frontierAfter K (es ++ es') := by
  simp only [frontierAfter, RedisFrontier.itemsOn_append, Sketch.putAll_append, Sketch.putAll_idem]

theorem known_onShard {f : Shard β → Shard β} (hf : ∀ s, (f s).known = s.known) (R : Redis β)
    (k k' : ShardKey) : ((onShard k f R).shards k').known = (R.shards k').known := by
  by_cases hk : k' = k
  · subst hk
    simp [onShard, hf]
  · simp [onShard, hk]

/-- Submitting the kept links once more. -/
theorem frontierTarget_submitBatch {C : Cluster β} {order : HashOrder} {nowMs : Int} {R : Redis β}
    {outcome : SubmitBatchOutcome} (hd : P.deps.linkDispatch = .direct)
    (h : (D.frontier P.pod).submitBatch D.wire D.bloom order nowMs P.outbound.kept C.redis =
      (.ok outcome, R)) : P.frontierTarget { C with redis := R } = P.frontierTarget C := by
  have hk := (RedisFrontier.submitBatch_known P.uncapped h).1
  have hpend (t : OutboxTable) : P.pending t = P.outbound.kept ++ [] := by
    simp [pending, hd]
  unfold frontierTarget
  rw [hpend]
  simp only [hk]
  exact frontierAfter_again _ _ _

theorem readAll_readable {rows : List OutboxRow} {entries : List UrlEntry}
    (h : OutboxRow.readAll D.parse rows = .ok entries) : entries = readable D rows := by
  induction rows generalizing entries with
  | nil => cases h; rfl
  | cons r rows ih =>
    simp only [OutboxRow.readAll] at h
    split at h
    · cases h
    · rename_i e hr
      split at h
      · cases h
      · rename_i es hes
        cases h
        rw [readable, List.filterMap_cons, hr, ih hes]
        rfl

/-- A publish call changes nothing, or submits the head of the backlog and marks it. -/
theorem publish_cases (P : Page D) (k : Pod D) (order : HashOrder) (nowMs : Int) (C : Cluster β) :
    (D.publishOneBatch k order nowMs C).2 = C ∨
      ∃ R outcome, (D.frontier k).submitBatch D.wire D.bloom order nowMs
          (readable D C.ledger.outbox.head) C.redis = (.ok outcome, R) ∧
        (D.publishOneBatch k order nowMs C).2 =
          ⟨R, { C.ledger with outbox := C.ledger.outbox.publishHead }⟩ := by
  have hlease : C.ledger.outbox.leaseBatch [] batchSize = C.ledger.outbox.head := by
    simp [OutboxTable.leaseBatch, OutboxTable.head]
  unfold Deployment.publishOneBatch
  rw [hlease]
  split
  · exact .inl rfl
  · unfold Deployment.ship Publisher.ship
    dsimp only [Deployment.publisher]
    cases hread : OutboxRow.readAll D.parse C.ledger.outbox.head with
    | error e => exact .inl rfl
    | ok entries =>
      have hentries := readAll_readable hread
      subst hentries
      dsimp only
      generalize hsub : (D.frontier k).submitBatch D.wire D.bloom order nowMs
        (readable D C.ledger.outbox.head) C.redis = res
      obtain ⟨r, R⟩ := res
      cases r with
      | error e =>
        have hR := RedisFrontier.submitBatch_error_same hsub
        subst hR
        exact .inl rfl
      | ok outcome =>
        have hrej := (RedisFrontier.submitBatch_known P.uncapped hsub).2
        refine .inr ⟨R, outcome, rfl, ?_⟩
        simp only [hrej]
        rfl

theorem filter_ids_head {A B : List OutboxRow}
    (h : ((A ++ B).map OutboxRow.id).Pairwise (· < ·)) :
    (A ++ B).filter (fun r => !(A.map OutboxRow.id).contains r.id) = B := by
  rw [List.map_append, List.pairwise_append] at h
  rw [List.filter_append]
  have hA : A.filter (fun r => !(A.map OutboxRow.id).contains r.id) = [] := by
    rw [List.filter_eq_nil_iff]
    intro r hr
    simp only [List.contains_eq_mem, Bool.not_eq_true', decide_eq_false_iff_not, not_not]
    exact List.mem_map_of_mem hr
  have hB : B.filter (fun r => !(A.map OutboxRow.id).contains r.id) = B := by
    rw [List.filter_eq_self]
    intro r hr
    simp only [List.contains_eq_mem, Bool.not_eq_true', decide_eq_false_iff_not]
    intro hm
    exact Nat.lt_irrefl _ (h.2.2 _ hm _ (List.mem_map_of_mem hr))
  rw [hA, hB, List.nil_append]

/-- The head of the backlog is the head of what will be the backlog. -/
theorem unpublished_commit (t : OutboxTable) : ∃ rest,
    (P.commit t).unpublished = t.head ++ rest ∧ (P.commit t.publishHead).unpublished = rest := by
  obtain ⟨new, hnew⟩ := OutboxTable.foldl_insert_extends P.url P.attemptId P.links t
  have hU : (P.commit t).unpublished =
      t.head ++ (t.unpublished.drop batchSize ++ new.filter fun r => !r.published) := by
    rw [OutboxTable.head, ← List.append_assoc, List.take_append_drop]
    unfold OutboxTable.unpublished commit
    rw [← hnew, List.filter_append]
  refine ⟨_, hU, ?_⟩
  have hle : ∀ i ∈ t.head.map OutboxRow.id, i ≤ t.seq := by
    intro i hi
    obtain ⟨r, hr, rfl⟩ := List.mem_map.1 hi
    exact t.le_seq r (List.mem_filter.1 (List.mem_of_mem_take hr)).1
  have hids := (P.commit t).unpublished_ids
  rw [hU] at hids
  unfold commit at hU ⊢
  rw [OutboxTable.publishHead, OutboxTable.foldl_insert_markPublished hle,
    OutboxTable.unpublished_markPublished, hU]
  exact filter_ids_head hids

theorem readable_append (rows rows' : List OutboxRow) :
    readable D (rows ++ rows') = readable D rows ++ readable D rows' := List.filterMap_append

/-- Publishing moves neither target, committed or not. -/
theorem frontierTarget_publish (hd : P.deps.linkDispatch = .durableOutbox) {C : Cluster β}
    {k : Pod D} {order : HashOrder} {nowMs : Int} {R : Redis β} {outcome : SubmitBatchOutcome}
    (h : (D.frontier k).submitBatch D.wire D.bloom order nowMs (readable D C.ledger.outbox.head)
      C.redis = (.ok outcome, R)) :
    P.frontierTarget ⟨R, { C.ledger with outbox := C.ledger.outbox.publishHead }⟩ =
        P.frontierTarget C ∧
      P.frontierTarget { C with redis := R } = P.frontierTarget C := by
  have hk := (RedisFrontier.submitBatch_known P.uncapped h).1
  obtain ⟨rest, hU, hU'⟩ := P.unpublished_commit C.ledger.outbox
  have hpend : P.pending C.ledger.outbox =
      readable D C.ledger.outbox.head ++ readable D rest := by
    simp only [pending, hd, hU, readable_append]
  have hpend' : P.pending C.ledger.outbox.publishHead = readable D rest := by
    simp only [pending, hd, hU']
  unfold frontierTarget
  simp only [hk, hpend, hpend']
  exact ⟨frontierAfter_submitted _ _ _, frontierAfter_again _ _ _⟩

/-! ## Nothing moves the targets -/

/-- The calls a delivery of the page makes. -/
def Proper (P : Page D) : Call → Prop
  | .ledger (.markAttempting url _ depth) => url = P.entry.url ∧ depth = P.entry.depth
  | .ledger (.markSucceeded record) =>
    ∃ path, record = P.pipeline.successRecord P.resp path P.outbound.kept
  | .ledger (.markDiscoveredSkipped url runId depth discoveredFrom reason) =>
    ∃ e ∈ P.outbound.depthSkipped, url = e.url ∧ runId = P.deps.runId ∧ depth = e.depth ∧
      discoveredFrom = e.discoveredFrom ∧ reason = .depth
  | .ledger (.markFailed ..) | .ledger (.markPermanentlyFailed ..) => False
  | .submitBatch es => P.deps.linkDispatch = .direct ∧ es = P.outbound.kept
  | .ack a => a = P.attemptId
  | _ => True

/-- Both targets are where they were. -/
structure SameTarget (P : Page D) (C C' : Cluster β) : Prop where
  ledger : P.ledgerTarget C'.ledger = P.ledgerTarget C.ledger
  frontier : P.frontierTarget C' = P.frontierTarget C

namespace SameTarget

variable {C C' C'' : Cluster β}

theorem refl (C : Cluster β) : P.SameTarget C C := ⟨rfl, rfl⟩

theorem trans (h : P.SameTarget C C') (h' : P.SameTarget C' C'') : P.SameTarget C C'' :=
  ⟨h'.ledger.trans h.ledger, h'.frontier.trans h.frontier⟩

/-- No filter and no payload has changed. -/
theorem of_known {R : Redis β} (h : ∀ k, (R.shards k).known = (C.redis.shards k).known) :
    P.SameTarget C { C with redis := R } := by
  refine ⟨rfl, ?_⟩
  unfold frontierTarget
  simp only [h]

/-- The ledger's target is the same and so are the pending links. -/
theorem of_ledger {l : Ledger} (h : P.ledgerTarget l = P.ledgerTarget C.ledger)
    (hp : P.pending l.outbox = P.pending C.ledger.outbox) : P.SameTarget C { C with ledger := l } := by
  refine ⟨h, ?_⟩
  unfold frontierTarget
  rw [hp]

end SameTarget

theorem pending_commit (t : OutboxTable) : P.pending (P.commit t) = P.pending t := by
  have hidem : (P.commit (P.commit t)).rows = (P.commit t).rows :=
    OutboxTable.foldl_insert_idem P.url P.attemptId P.links t
  unfold pending
  split
  · rfl
  · unfold OutboxTable.unpublished
    rw [hidem]

theorem sameTarget_exec {C : Cluster β} {c : Ledger.Call} (hc : P.Proper (.ledger c)) :
    P.SameTarget C { C with ledger := (C.ledger.exec c).2 } := by
  cases c with
  | markAttempting url runId depth =>
    obtain ⟨rfl, rfl⟩ := hc
    refine .of_ledger (ledgerTarget_markAttempting _ _ _) ?_
    exact congrArg _ (C.ledger.markAttempting_outbox _ _ _)
  | markSucceeded record =>
    obtain ⟨path, rfl⟩ := hc
    refine .of_ledger (ledgerTarget_markSucceeded _ _) ?_
    cases hr : C.ledger.rows (P.pipeline.successRecord P.resp path P.outbound.kept).url.asStr with
    | none => simp [Ledger.exec, Ledger.markSucceeded, hr]
    | some row =>
      have hout : (C.ledger.exec (.markSucceeded (P.pipeline.successRecord P.resp path
          P.outbound.kept))).2.outbox = P.commit C.ledger.outbox := Ledger.markSucceeded_outbox hr
      rw [hout, pending_commit]
  | markDiscoveredSkipped url runId depth discoveredFrom reason =>
    obtain ⟨e, he, rfl, rfl, rfl, rfl, rfl⟩ := hc
    refine .of_ledger (ledgerTarget_skip _ he) ?_
    exact congrArg _ (C.ledger.markDiscoveredSkipped_outbox _ _ _ _ _)
  | markFailed url kind => exact hc.elim
  | markPermanentlyFailed url reason => exact hc.elim

/-- The payload of the page itself is not looked at. -/
theorem sameTarget_hdel {C : Cluster β} {R : Redis β}
    (h : ∀ k, (R.shards k).known = (C.redis.shards k).known) :
    P.SameTarget C { C with redis := onShard P.shard (·.ackHdel P.urlId) R } := by
  refine ⟨rfl, ?_⟩
  refine frontierAfter_congr (fun k => ?_) (fun k u hu => ?_) _
  · rw [← h k]
    by_cases hk : k = P.shard
    · simp [hk, onShard, Shard.ackHdel, Shard.known]
    · simp [hk, onShard]
  · rw [← h k]
    by_cases hk : k = P.shard
    · have hu : u ≠ P.urlId := fun he => hu ⟨hk, he⟩
      simp [hk, onShard, Shard.ackHdel, Shard.known, hu]
    · simp [hk, onShard]

theorem decodeAttempt_attemptId : decodeAttempt P.attemptId = .ok (P.shard, P.urlId, P.host) :=
  decodeAttempt_encodeAttempt _ _ _

theorem known_ackZrem (l : Lease) (R : Redis β) (k k' : ShardKey) :
    ((onShard k (·.ackZrem l) R).shards k').known = (R.shards k').known :=
  known_onShard (f := (·.ackZrem l)) (fun _ => rfl) R k k'

/-- An ack of the page, by the pod that owns its shard. -/
theorem ack_eq (R : Redis β) : (D.frontier P.pod).ack P.attemptId R =
    (.ok (), onShard P.shard (·.ackHdel P.urlId) (onShard P.shard (·.ackZrem ⟨P.urlId, P.host⟩) R)) := by
  have howned : P.shard ∈ (D.frontier P.pod).ownedShards := P.owned
  simp [RedisFrontier.ack, decodeAttempt_attemptId, howned, onShard]

theorem sameTarget_answers {C C' : Cluster β} {c : Call} {r : c.Answer} (hc : P.Proper c)
    (h : P.answers C c r C') : P.SameTarget C C' := by
  obtain ⟨R', l'⟩ := C'
  cases c with
  | ledger c =>
    obtain ⟨hexec, hR⟩ := h
    have hl : l' = (C.ledger.exec c).2 := by rw [hexec]
    have hR : R' = C.redis := hR
    subst hl hR
    exact sameTarget_exec hc
  | ack a =>
    obtain ⟨hack, hl⟩ := h
    have ha : a = P.attemptId := hc
    have hl : l' = C.ledger := hl
    subst ha hl
    rw [ack_eq] at hack
    obtain ⟨-, rfl⟩ := Prod.mk.inj hack
    exact sameTarget_hdel fun k => known_ackZrem _ _ _ k
  | advanceWake host untilMs =>
    obtain ⟨hadv, hl⟩ := h
    have hl : l' = C.ledger := hl
    subst hl
    refine .of_known fun k => ?_
    unfold RedisFrontier.advanceWake at hadv
    dsimp only at hadv
    split at hadv
    · obtain ⟨-, rfl⟩ := Prod.mk.inj hadv
      exact known_onShard (f := (·.advanceWake host untilMs.toInt64.toInt)) (fun _ => rfl) _ _ k
    · obtain ⟨-, rfl⟩ := Prod.mk.inj hadv
      rfl
  | submitBatch es =>
    obtain ⟨⟨order, nowMs, hsub⟩, ⟨outcome, rfl⟩, hl⟩ := h
    obtain ⟨hd, rfl⟩ := hc
    have hl : l' = C.ledger := hl
    subst hl
    exact ⟨rfl, frontierTarget_submitBatch hd hsub⟩
  | now =>
    have h : _ = C := h
    rw [h]
    exact .refl C
  | _ =>
    obtain ⟨-, h⟩ := h
    rw [h]
    exact .refl C

theorem ledgerTarget_publishHead (l : Ledger) :
    P.ledgerTarget { l with outbox := l.outbox.publishHead } = P.ledgerTarget l := by
  refine ledgerTarget_ext (fun _ _ => rfl) rfl ?_
  have hle : ∀ i ∈ l.outbox.head.map OutboxRow.id, i ≤ l.outbox.seq := by
    intro i hi
    obtain ⟨r, hr, rfl⟩ := List.mem_map.1 hi
    exact l.outbox.le_seq r (List.mem_filter.1 (List.mem_of_mem_take hr)).1
  unfold commit
  rw [OutboxTable.publishHead, OutboxTable.foldl_insert_markPublished hle]
  simp [OutboxTable.linksOf, OutboxTable.markPublished, OutboxRow.publish, OutboxRow.link,
    List.filter_map, Function.comp_def]

theorem sameTarget_env {C C' : Cluster β} (h : P.Env C C') : P.SameTarget C C' := by
  cases h with
  | claim k now leaseMs => exact .of_known (known_onShard (fun s => s.claim_known now leaseMs) _ k)
  | promote k now limit => exact .of_known (known_onShard (fun s => s.promote_known now limit) _ k)
  | reclaim k now limit => exact .of_known (known_onShard (fun s => s.reclaim_known now limit) _ k)
  | publish k order nowMs hd =>
    rcases P.publish_cases k order nowMs C with heq | ⟨R, outcome, hsub, heq⟩
    · rw [heq]
      exact .refl C
    · rw [heq]
      exact ⟨ledgerTarget_publishHead _, (frontierTarget_publish hd hsub).1⟩
  | publishCut k order nowMs hd =>
    rcases P.publish_cases k order nowMs C with heq | ⟨R, outcome, hsub, heq⟩
    · rw [heq]
      exact .refl C
    · rw [heq]
      exact ⟨rfl, (frontierTarget_publish hd hsub).2⟩

end Page

end Crawlrs
