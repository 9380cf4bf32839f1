import Crawlrs.L4Runtime.Target

/-!
# One delivery, call by call

A delivery that is not cut off acks where everything is in place: the row, the
history row, the outbox rows, the skip rows and, under `Direct`, the links in
the filter (`Complete`). `safe_run` follows the phases of `UrlPipeline::run` with
the world of the page between any two calls.
-/
namespace Crawlrs

variable {β : Type}

open RedisFrontier (itemsOn onShard)
open Prog (Safe Log each safe_bind safe_perform)

theorem Ledger.markAttempting_row (l : Ledger) (url : CanonicalUrl) (runId : String) (depth : UInt32) :
    ∃ row, (l.markAttempting url runId depth).2.rows url.asStr = some row ∧ row.depth = depth := by
  simp only [markAttempting, insertHistory_rows, setRow_rows, Function.update_self,
    Option.some.injEq, exists_eq_left']
  split <;> rfl

namespace Page

variable {D : Deployment β} {P : Page D}

/-! ## At the ack nothing is missing -/

/-- The delivery has its row. -/
def Started (P : Page D) (C : Cluster β) : Prop :=
  ∃ row, C.ledger.rows P.url = some row ∧ row.depth = P.entry.depth

/-- The commit has happened: the row, the history row and the outbox rows are there. -/
structure Committed (P : Page D) (C : Cluster β) : Prop where
  row : (C.ledger.rows P.url).map UrlRow.summary =
    some (.succeeded, 0, some (contentHash P.resp.body), P.entry.depth)
  history : C.ledger.history.any P.attempted = true
  outbox : ∀ e ∈ P.links, C.ledger.outbox.conflicts P.url P.attemptId e.url.asStr = true

/-- The link's row is there. -/
def Listed (C : Cluster β) (e : UrlEntry) : Prop := (C.ledger.rows e.url.asStr).isSome

/-- The filter of its shard has the link. -/
def Seen (D : Deployment β) (C : Cluster β) (e : UrlEntry) : Prop :=
  D.bloom.has (C.redis.shards (D.policy.shardKey e.url)).seen (D.wire.idOf e) = true

structure Complete (P : Page D) (C : Cluster β) : Prop extends P.Committed C where
  skips : ∀ e ∈ P.outbound.depthSkipped, Listed C e
  submitted : P.deps.linkDispatch = .direct → ∀ e ∈ P.outbound.kept, Seen D C e

/-- What goes on between the calls leaves the rows, the history and the links of the outbox alone,
and forgets nothing. -/
theorem env_frame {C C' : Cluster β} (h : P.Env C C') :
    C'.ledger.rows = C.ledger.rows ∧ C'.ledger.history = C.ledger.history ∧
      (∀ u a x, C'.ledger.outbox.conflicts u a x = C.ledger.outbox.conflicts u a x) ∧
      ∀ e, Seen D C e → Seen D C' e := by
  have hknown {R : Redis β} (hk : ∀ k, (R.shards k).known = (C.redis.shards k).known) (e : UrlEntry)
      (he : Seen D C e) : Seen D { C with redis := R } e := by
    have hs : (R.shards (D.policy.shardKey e.url)).seen =
        (C.redis.shards (D.policy.shardKey e.url)).seen := congrArg Prod.fst (hk _)
    unfold Seen at he ⊢
    rw [hs]
    exact he
  have hsubmit {k : Pod D} {order : HashOrder} {nowMs : Int} {es : List UrlEntry} {R : Redis β}
      {outcome : SubmitBatchOutcome}
      (hsub : (D.frontier k).submitBatch D.wire D.bloom order nowMs es C.redis = (.ok outcome, R))
      (e : UrlEntry) (he : Seen D C e) : Seen D ⟨R, C.ledger⟩ e := by
    have hg := RedisFrontier.submitBatch_grows (F := D.frontier k) (W := D.wire) (B := D.bloom) order
      nowMs es C.redis
    rw [hsub] at hg
    exact hg.seen _ _ he
  cases h with
  | claim k now leaseMs =>
    exact ⟨rfl, rfl, fun _ _ _ => rfl, hknown (known_onShard (fun s => s.claim_known now leaseMs) _ k)⟩
  | promote k now limit =>
    exact ⟨rfl, rfl, fun _ _ _ => rfl, hknown (known_onShard (fun s => s.promote_known now limit) _ k)⟩
  | reclaim k now limit =>
    exact ⟨rfl, rfl, fun _ _ _ => rfl, hknown (known_onShard (fun s => s.reclaim_known now limit) _ k)⟩
  | publish k order nowMs hd =>
    rcases P.publish_cases k order nowMs C with heq | ⟨R, outcome, hsub, heq⟩
    · rw [heq]
      exact ⟨rfl, rfl, fun _ _ _ => rfl, fun _ h => h⟩
    · rw [heq]
      exact ⟨rfl, rfl, OutboxTable.conflicts_markPublished _ _, hsubmit hsub⟩
  | publishCut k order nowMs hd =>
    rcases P.publish_cases k order nowMs C with heq | ⟨R, outcome, hsub, heq⟩
    · rw [heq]
      exact ⟨rfl, rfl, fun _ _ _ => rfl, fun _ h => h⟩
    · rw [heq]
      exact ⟨rfl, rfl, fun _ _ _ => rfl, hsubmit hsub⟩

theorem stable_started : P.world.Stable P.Started := by
  rintro C C' ⟨row, hr, hd⟩ he
  exact ⟨row, by rw [(env_frame he).1]; exact hr, hd⟩

theorem stable_committed : P.world.Stable P.Committed := by
  intro C C' h he
  obtain ⟨hrows, hhist, hout, -⟩ := env_frame he
  refine ⟨?_, ?_, fun e hl => ?_⟩
  · rw [hrows]
    exact h.row
  · rw [hhist]
    exact h.history
  · rw [hout]
    exact h.outbox e hl

theorem stable_listed (es : List UrlEntry) : P.world.Stable fun C => ∀ e ∈ es, Listed C e := by
  intro C C' h he e hm
  unfold Listed
  rw [(env_frame he).1]
  exact h e hm

theorem stable_complete : P.world.Stable P.Complete := by
  intro C C' h he
  exact ⟨stable_committed C C' h.toCommitted he, stable_listed _ C C' h.skips he,
    fun hd e hm => (env_frame he).2.2.2 e (h.submitted hd e hm)⟩

/-! ## One delivery, phase by phase -/

/-- The delivery has not acked yet. -/
def NoAck (log : Log Call Call.Answer) : Prop := ∀ e ∈ log, e.1.isAck = false

/-- Where a delivery may make a call: before its ack, which needs everything to be there. -/
def Allowed (P : Page D) (log : Log Call Call.Answer) (C : Cluster β) (c : Call) : Prop :=
  P.Proper c ∧ NoAck log ∧ (c.isAck → P.Complete C)

/-- A call of the delivery that is not its ack. -/
def Quiet (P : Page D) (_ : Log Call Call.Answer) (_ : Cluster β) (c : Call) : Prop :=
  P.Proper c ∧ c.isAck = false

section Safe

variable {log : Log Call Call.Answer} {C : Cluster β}

theorem safe_proper {c : Call} {post : c.Answer → Log Call Call.Answer → Cluster β → Prop}
    {Q : Cluster β → Prop} (hQ : P.world.Stable Q) (hC : Q C) (hc : P.Proper c)
    (hack : c.isAck = false)
    (h : ∀ C₁ r C₂, Q C₁ → P.answers C₁ c r C₂ → post r (⟨c, r⟩ :: log) C₂) :
    Safe P.world P.Quiet post (await c) log C :=
  safe_perform hQ hC (fun _ _ => ⟨hc, hack⟩) h

/-- Before the ack, quiet calls are allowed. -/
theorem safe_of_quiet {α : Type} {post : α → Log Call Call.Answer → Cluster β → Prop} {p : Pipe α}
    (h : Safe P.world P.Quiet post p log C) (hlog : NoAck log) :
    Safe P.world P.Allowed (fun a log C => post a log C ∧ NoAck log) p log C := by
  induction p generalizing log C with
  | pure a => exact ⟨h, hlog⟩
  | call c k ih =>
    intro C₁ hr
    obtain ⟨⟨hc, hack⟩, hk⟩ := h C₁ hr
    refine ⟨⟨hc, hlog, fun ha => ?_⟩, fun r C₂ hact => ih r (hk r C₂ hact) fun e he => ?_⟩
    · rw [hack] at ha
      cases ha
    · rcases List.mem_cons.1 he with rfl | he
      · exact hack
      · exact hlog e he

theorem stable_true : P.world.Stable fun _ => True := fun _ _ _ _ => trivial

theorem not_blocked : P.pipeline.blocked = false := by
  simp [UrlPipeline.blocked, UrlPipeline.url, pipeline, P.host_eq, P.allowed]

theorem safe_politenessAllows :
    Safe P.world P.Quiet (fun a _ _ => a = true) P.pipeline.politenessAllows log C := by
  unfold UrlPipeline.politenessAllows
  rw [not_blocked]
  refine safe_bind (safe_proper stable_true trivial trivial rfl ?_)
  rintro C₁ r C₂ - ⟨rfl, rfl⟩
  rfl

theorem safe_markAttempting :
    Safe P.world P.Quiet (fun _ _ C => P.Started C) P.pipeline.markAttempting log C := by
  have hc : P.Proper (.ledger (.markAttempting P.pipeline.url P.pipeline.deps.runId
    P.pipeline.entry.depth)) := ⟨rfl, rfl⟩
  refine safe_bind (safe_proper stable_true trivial hc rfl ?_)
  rintro C₁ r ⟨R, l⟩ - ⟨hexec, -⟩
  have hl : l = (C₁.ledger.markAttempting P.entry.url P.deps.runId P.entry.depth).2 :=
    (congrArg Prod.snd hexec).symm
  subst hl
  exact Ledger.markAttempting_row _ _ _ _

theorem safe_applyWakePlan (hC : P.Started C) (plan : Except Error NextWake) :
    Safe P.world P.Quiet (fun _ _ C => P.Started C) (UrlPipeline.applyWakePlan plan) log C := by
  cases plan with
  | error e => exact hC
  | ok next =>
    refine safe_bind (safe_proper stable_started hC trivial rfl ?_)
    rintro C₁ now C₂ h1 rfl
    split
    · exact h1
    · refine safe_bind (safe_proper stable_started h1 trivial rfl ?_)
      rintro C₃ r ⟨R, l⟩ h3 ⟨-, hl⟩
      have hl : l = C₃.ledger := hl
      subst hl
      exact h3

theorem safe_fetch (hC : P.Started C) : Safe P.world P.Quiet
    (fun a _ C => a = some P.resp ∧ P.Started C) P.pipeline.fetch log C := by
  refine safe_bind (safe_proper stable_started hC trivial rfl ?_)
  rintro C₁ r C₂ h1 ⟨rfl, rfl⟩
  simp only [P.clean]
  refine safe_bind (safe_proper stable_started h1 trivial rfl ?_)
  rintro C₃ plan C₄ h3 ⟨-, rfl⟩
  refine safe_bind ((safe_applyWakePlan h3 plan).mono ?_)
  intro _ _ C' h
  exact ⟨rfl, h⟩

theorem safe_extract (hC : P.Started C) : Safe P.world P.Quiet
    (fun a _ C => a = some P.doc ∧ P.Started C) (P.pipeline.extract P.resp) log C := by
  have hparse {log : Log Call Call.Answer} {C : Cluster β} (hC : P.Started C) : Safe P.world P.Quiet
      (fun a _ C => a = some P.doc ∧ P.Started C) (P.pipeline.parseGeneric P.resp) log C := by
    refine safe_bind (safe_proper stable_started hC trivial rfl ?_)
    rintro C₁ r C₂ h1 ⟨rfl, rfl⟩
    exact ⟨rfl, h1⟩
  unfold UrlPipeline.extract
  split
  · exact hparse hC
  · refine safe_bind (safe_proper stable_started hC trivial rfl ?_)
    rintro C₁ r C₂ h1 ⟨hr, rfl⟩
    rcases hr with rfl | rfl
    · exact hparse h1
    · exact ⟨rfl, h1⟩

/-- The commit of a delivery that has its row. -/
theorem committed_markSucceeded {R : Redis β} {l : Ledger} {path : String} (h : P.Started ⟨R, l⟩) :
    P.Committed ⟨R, (l.markSucceeded (P.pipeline.successRecord P.resp path P.outbound.kept)).2⟩ := by
  obtain ⟨row, hr, hd⟩ := h
  have hr : l.rows (P.pipeline.successRecord P.resp path P.outbound.kept).url.asStr = some row := hr
  refine ⟨?_, ?_, fun e he => ?_⟩
  · have hrow : (l.markSucceeded (P.pipeline.successRecord P.resp path P.outbound.kept)).2.rows P.url =
        some { row with
          status := .succeeded, retryCount := 0, blobPath := some path,
          contentHash := some (contentHash P.resp.body) } := by
      simp only [Ledger.markSucceeded, hr, Ledger.insertHistory_rows, Ledger.setRow_rows]
      exact Function.update_self _ _ _
    rw [hrow]
    simp [UrlRow.summary, hd]
  · have hh : (l.markSucceeded (P.pipeline.successRecord P.resp path P.outbound.kept)).2.history =
        if l.history.any P.attempted then l.history
        else l.history ++ [⟨P.url, row.lastRunId, .succeeded path, some P.attemptId⟩] := by
      simp only [Ledger.markSucceeded, hr]
      exact Ledger.insertHistory_history _ _ _ _ _
    simp only [hh]
    split
    · assumption
    · simp [attempted]
  · have hout : (l.markSucceeded (P.pipeline.successRecord P.resp path P.outbound.kept)).2.outbox =
        P.commit l.outbox := Ledger.markSucceeded_outbox hr
    dsimp only
    rw [hout]
    exact OutboxTable.conflicts_foldl_insert _ he

theorem committed_skip {R : Redis β} {l : Ledger} (h : P.Committed ⟨R, l⟩) (url : CanonicalUrl)
    (runId : String) (depth : UInt32) (discoveredFrom : Option CanonicalUrl) (reason : SkipReason) :
    P.Committed ⟨R, (l.markDiscoveredSkipped url runId depth discoveredFrom reason).2⟩ := by
  obtain ⟨row, hr, hs⟩ := Option.map_eq_some_iff.1 h.row
  refine ⟨?_, ?_, fun e he => ?_⟩
  · have hr' := Ledger.exec_row (c := .markDiscoveredSkipped url runId depth discoveredFrom reason)
      (fun _ => rfl) hr
    exact (congrArg (Option.map UrlRow.summary) hr').trans (congrArg some hs)
  · have hh : (l.markDiscoveredSkipped url runId depth discoveredFrom reason).2.history =
        l.history := by
      unfold Ledger.markDiscoveredSkipped
      split <;> rfl
    dsimp only
    rw [hh]
    exact h.history
  · dsimp only
    rw [Ledger.markDiscoveredSkipped_outbox]
    exact h.outbox e he

/-- The skips are recorded one by one; `done` are those that already are. -/
theorem safe_skips {todo : List UrlEntry} (hall : ∀ e ∈ todo, e ∈ P.outbound.depthSkipped) :
    ∀ (done : List UrlEntry) (log : Log Call Call.Answer) (C : Cluster β), P.Committed C →
      (∀ e ∈ done, Listed C e) → Safe P.world P.Quiet
        (fun _ _ C => P.Committed C ∧ ∀ e ∈ done ++ todo, Listed C e)
        (each (fun child => P.pipeline.recordDiscoveredSkip child.url child.depth
          child.discoveredFrom .depth) todo) log C := by
  induction todo with
  | nil => intro done log C hC hdone; exact ⟨hC, by simpa using hdone⟩
  | cons child todo ih =>
    intro done log C hC hdone
    have hc : P.Proper (.ledger (.markDiscoveredSkipped child.url P.deps.runId child.depth
        child.discoveredFrom .depth)) :=
      ⟨child, hall child List.mem_cons_self, rfl, rfl, rfl, rfl, rfl⟩
    refine safe_bind (safe_bind (safe_proper (stable_committed.and (stable_listed done)) ⟨hC, hdone⟩
      hc rfl ?_))
    rintro C₁ r ⟨R, l⟩ ⟨h1, hd1⟩ ⟨hexec, hR⟩
    have hl : l = (C₁.ledger.exec (.markDiscoveredSkipped child.url P.deps.runId child.depth
      child.discoveredFrom .depth)).2 := (congrArg Prod.snd hexec).symm
    have hR : R = C₁.redis := hR
    subst hl hR
    have hdone' : ∀ e ∈ done ++ [child], Listed ⟨C₁.redis, (C₁.ledger.exec (.markDiscoveredSkipped
        child.url P.deps.runId child.depth child.discoveredFrom .depth)).2⟩ e := by
      intro e he
      rcases List.mem_append.1 he with he | he
      · obtain ⟨row, hr⟩ := Option.isSome_iff_exists.1 (hd1 e he)
        exact Option.isSome_iff_exists.2 ⟨row, Ledger.exec_row (fun _ => rfl) hr⟩
      · rw [List.mem_singleton.1 he]
        obtain ⟨row, hr, -⟩ := hasStatus_markDiscoveredSkipped (l := C₁.ledger)
          (u := child.url.asStr) rfl
          P.deps.runId child.depth child.discoveredFrom .depth
        exact Option.isSome_iff_exists.2 ⟨row, hr⟩
    have hrest := ih (fun e he => hall e (List.mem_cons_of_mem _ he)) _ (⟨_, r⟩ :: log) _
      (committed_skip h1 _ _ _ _ _) hdone'
    rw [List.append_assoc] at hrest
    exact hrest

/-- Once the page is committed and its skips are recorded. -/
theorem safe_dispatch (hC : P.Committed C) (hskips : ∀ e ∈ P.outbound.depthSkipped, Listed C e) :
    Safe P.world P.Quiet (fun _ _ C => P.Complete C) (P.pipeline.dispatch P.outbound.kept) log C := by
  unfold UrlPipeline.dispatch
  by_cases hd : P.deps.linkDispatch = .direct
  · have hd' : P.pipeline.deps.linkDispatch = .direct := hd
    by_cases hne : P.outbound.kept = []
    · rw [if_neg fun h => h.2 hne]
      exact ⟨hC, hskips, fun _ e he => by rw [hne] at he; cases he⟩
    · rw [if_pos ⟨hd', hne⟩]
      refine safe_bind (safe_proper (stable_committed.and (stable_listed _)) ⟨hC, hskips⟩ ⟨hd, rfl⟩
        rfl ?_)
      rintro C₁ r ⟨R, l⟩ ⟨h1, hs1⟩ ⟨⟨order, nowMs, hsub⟩, ⟨outcome, rfl⟩, hl⟩
      have hl : l = C₁.ledger := hl
      subst hl
      obtain ⟨hk, hrej⟩ := RedisFrontier.submitBatch_known P.uncapped hsub
      simp only [hrej]
      refine ⟨⟨h1.row, h1.history, h1.outbox⟩, hs1, fun _ e he => ?_⟩
      have hmem : (D.wire.idOf e, D.wire.encode e) ∈
          itemsOn D.policy D.wire (D.policy.shardKey e.url) P.outbound.kept := by
        refine List.mem_map.2 ⟨e, List.mem_filter.2 ⟨he, by simp⟩, rfl⟩
      have hhas := Sketch.has_putAll (B := D.bloom)
        (m := (C₁.redis.shards (D.policy.shardKey e.url)).known) hmem
      have hk := hk (D.policy.shardKey e.url)
      unfold Seen
      dsimp only
      rw [show (R.shards (D.policy.shardKey e.url)).seen =
        (R.shards (D.policy.shardKey e.url)).known.1 from rfl, hk]
      exact hhas
  · rw [if_neg fun h => hd h.1]
    exact ⟨hC, hskips, fun h => absurd h hd⟩

theorem safe_ack (hC : P.Complete C) (hlog : NoAck log) :
    Safe P.world P.Allowed (fun _ _ _ => True) P.pipeline.ack log C := by
  refine safe_bind (safe_perform stable_complete hC (fun C₁ h1 => ⟨rfl, hlog, fun _ => h1⟩) ?_)
  intro C₁ r C₂ _ _
  trivial

theorem safe_finalize (hC : P.Started C) (hlog : NoAck log) : Safe P.world P.Allowed
    (fun _ _ _ => True) (P.pipeline.finalize P.resp P.doc P.outbound) log C := by
  have hstore : Safe P.world P.Quiet (fun r _ C => (∃ path, r = .ok path) ∧ P.Started C)
      (await (.storeWrite (P.pipeline.storeRecord P.resp P.doc))) log C := by
    refine safe_proper stable_started hC trivial rfl ?_
    rintro C₁ r C₂ h1 ⟨hr, rfl⟩
    exact ⟨hr, h1⟩
  refine safe_bind ((safe_of_quiet hstore hlog).mono ?_)
  rintro _ log₂ C₂ ⟨⟨⟨path, rfl⟩, h2⟩, hlog₂⟩
  have hcommit : Safe P.world P.Quiet (fun _ _ C => P.Committed C)
      (await (.ledger (.markSucceeded (P.pipeline.successRecord P.resp path P.outbound.kept))))
      log₂ C₂ := by
    refine safe_proper stable_started h2 ⟨path, rfl⟩ rfl ?_
    rintro C₃ r ⟨R, l⟩ h3 ⟨hexec, -⟩
    have hl : l = (C₃.ledger.exec (.markSucceeded (P.pipeline.successRecord P.resp path
      P.outbound.kept))).2 := (congrArg Prod.snd hexec).symm
    subst hl
    exact committed_markSucceeded (l := C₃.ledger) h3
  refine safe_bind ((safe_of_quiet hcommit hlog₂).mono ?_)
  rintro _ log₃ C₃ ⟨h3, hlog₃⟩
  have hskips := safe_skips (fun e he => he) [] log₃ C₃ h3 (by simp)
  refine safe_bind ((safe_of_quiet hskips hlog₃).mono ?_)
  rintro _ log₄ C₄ ⟨⟨h4, hs4⟩, hlog₄⟩
  refine safe_bind ((safe_of_quiet (safe_dispatch h4 hs4) hlog₄).mono ?_)
  rintro _ log₅ C₅ ⟨h5, hlog₅⟩
  exact safe_ack h5 hlog₅

theorem safe_run (C : Cluster β) :
    Safe P.world P.Allowed (fun _ _ _ => True) P.pipeline.run [] C := by
  have hlog : NoAck [] := by simp [NoAck]
  refine safe_bind ((safe_of_quiet safe_politenessAllows hlog).mono ?_)
  rintro _ log₁ C₁ ⟨rfl, hlog₁⟩
  refine safe_bind ((safe_of_quiet safe_markAttempting hlog₁).mono ?_)
  rintro _ log₂ C₂ ⟨h2, hlog₂⟩
  refine safe_bind ((safe_of_quiet (safe_fetch h2) hlog₂).mono ?_)
  rintro _ log₃ C₃ ⟨⟨rfl, h3⟩, hlog₃⟩
  refine safe_bind ((safe_of_quiet (safe_extract h3) hlog₃).mono ?_)
  rintro _ log₄ C₄ ⟨⟨rfl, h4⟩, hlog₄⟩
  exact safe_finalize h4 hlog₄

end Safe

end Page

end Crawlrs
