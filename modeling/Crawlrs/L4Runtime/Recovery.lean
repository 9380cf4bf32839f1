import Crawlrs.L4Runtime.Completion
import Crawlrs.L4Runtime.Dispatch

/-!
# Crashes leave no trace

However often the deliveries of a page are cut off, what the run leaves once an
ack went through is what a run without crashes leaves. The targets stay where
they are, and at the ack the result is the target.

* `inv_step`: the invariant of a run, with the page kept in its shard until the
  ack.
* `redelivery_idempotent`: two runs from the same state.
-/
namespace Crawlrs

variable {β : Type}

open RedisFrontier (itemsOn onShard)
open Prog (Safe)

namespace Page

variable {D : Deployment β} {P : Page D}

/-! ## Whole runs -/

theorem seen_nil_of_drained {C : Cluster β} (h : P.Complete C) (hd : P.Dispatched C) (k : ShardKey) :
    D.bloom.putAll (C.redis.shards k).known
      (itemsOn D.policy D.wire k (P.pending C.ledger.outbox)) = (C.redis.shards k).known := by
  unfold pending
  split
  · rename_i hdirect
    refine Sketch.putAll_of_has fun p hp => ?_
    obtain ⟨e, he, rfl⟩ := List.mem_map.1 hp
    obtain ⟨he, hk⟩ := List.mem_filter.1 he
    have hseen := h.submitted hdirect e he
    rw [Seen, of_decide_eq_true hk] at hseen
    exact hseen
  · rename_i hdurable
    have hrows := commit_rows_of_conflicts h.outbox
    have hnil : (P.commit C.ledger.outbox).unpublished = [] := by
      rw [← hd hdurable]
      unfold OutboxTable.unpublished
      rw [hrows]
    rw [hnil]
    rfl

/-- Where nothing is missing the result is the target. -/
theorem ledgerResult_of_complete {C : Cluster β} (h : P.Complete C) :
    P.ledgerResult C.ledger = P.ledgerTarget C.ledger := by
  have hskips : (P.ledgerResult C.ledger).skips = (P.ledgerTarget C.ledger).skips := by
    funext u
    simp only [ledgerResult, ledgerTarget]
    split
    · rfl
    · cases hr : C.ledger.rows u with
      | some row => rfl
      | none =>
        have hnot : u ∉ P.outbound.depthSkipped.map (·.url.asStr) := by
          intro hm
          obtain ⟨e, he, rfl⟩ := List.mem_map.1 hm
          have hl := h.skips e he
          rw [Listed, hr] at hl
          cases hl
        simp [hnot]
  have hsucc : (P.ledgerResult C.ledger).succeeded = (P.ledgerTarget C.ledger).succeeded := by
    simp [ledgerResult, ledgerTarget, h.history]
  have hout : (P.ledgerResult C.ledger).outbox = (P.ledgerTarget C.ledger).outbox := by
    simp [ledgerResult, ledgerTarget, OutboxTable.linksOf, commit_rows_of_conflicts h.outbox]
  have hrow : (P.ledgerResult C.ledger).row = (P.ledgerTarget C.ledger).row := h.row
  calc P.ledgerResult C.ledger
      = ⟨(P.ledgerResult C.ledger).row, (P.ledgerResult C.ledger).skips,
          (P.ledgerResult C.ledger).succeeded, (P.ledgerResult C.ledger).outbox⟩ := rfl
    _ = P.ledgerTarget C.ledger := by rw [hskips, hsucc, hout, hrow]

theorem frontierResult_of_complete {C : Cluster β} (h : P.Complete C) (hd : P.Dispatched C) :
    P.frontierResult C.redis = P.frontierTarget C := by
  unfold frontierResult frontierTarget frontierAfter
  simp only [seen_nil_of_drained h hd]
  rfl

/-- The page waits in its shard. -/
abbrev Waiting (P : Page D) (R : Redis β) : Prop :=
  (R.shards P.shard).Pinned D.bloom D.wire P.urlId P.entry P.host

theorem waiting_onShard {f : Shard β → Shard β} {R : Redis β} (k : ShardKey)
    (hf : ∀ s : Shard β, s.Pinned D.bloom D.wire P.urlId P.entry P.host →
      (f s).Pinned D.bloom D.wire P.urlId P.entry P.host)
    (h : P.Waiting R) : P.Waiting (onShard k f R) := by
  by_cases hk : P.shard = k
  · subst hk
    simpa [Waiting, onShard] using hf _ h
  · simpa [Waiting, onShard, hk] using h

theorem waiting_submitBatch {F : RedisFrontier} {order : HashOrder} {nowMs : Int}
    {es : List UrlEntry} {R R' : Redis β} {r : Except Error SubmitBatchOutcome}
    (hsub : F.submitBatch D.wire D.bloom order nowMs es R = (r, R')) (h : P.Waiting R) :
    P.Waiting R' := by
  have hR' : R' = (F.submitBatch D.wire D.bloom order nowMs es R).2 := by rw [hsub]
  rw [hR']
  exact RedisFrontier.submitBatch_stable (fun s e s' hs hne hst => hs.step (hne P.urlId) hst) order
    nowMs es h

theorem waiting_answers {C C' : Cluster β} {c : Call} {r : c.Answer} (hack : c.isAck = false)
    (h : P.answers C c r C') (hw : P.Waiting C.redis) : P.Waiting C'.redis := by
  cases c with
  | ledger c =>
    rw [h.2]
    exact hw
  | ack a => cases hack
  | advanceWake host untilMs =>
    have hadv := h.1
    unfold RedisFrontier.advanceWake at hadv
    dsimp only at hadv
    split at hadv
    · rw [← (Prod.mk.inj hadv).2]
      exact waiting_onShard _ (fun s hs => hs.step (f := .advance host _) (by simp) .advance) hw
    · rw [← (Prod.mk.inj hadv).2]
      exact hw
  | submitBatch es =>
    obtain ⟨⟨order, nowMs, hsub⟩, -, -⟩ := h
    exact waiting_submitBatch hsub hw
  | now =>
    have h : C' = C := h
    rw [h]
    exact hw
  | _ =>
    rw [h.2]
    exact hw

theorem waiting_env {C C' : Cluster β} (h : P.Env C C') (hw : P.Waiting C.redis) :
    P.Waiting C'.redis := by
  have hpublish (k : Pod D) (order : HashOrder) (nowMs : Int) :
      P.Waiting (D.publishOneBatch k order nowMs C).2.redis := by
    rcases P.publish_cases k order nowMs C with heq | ⟨R, outcome, hsub, heq⟩
    · rw [heq]
      exact hw
    · rw [heq]
      exact waiting_submitBatch hsub hw
  cases h with
  | claim k now leaseMs => exact waiting_onShard k (fun s hs => hs.claim now leaseMs) hw
  | promote k now limit => exact waiting_onShard k (fun s hs => hs.promote now limit) hw
  | reclaim k now limit => exact waiting_onShard k (fun s hs => hs.reclaim now limit) hw
  | publish k order nowMs hd => exact hpublish k order nowMs
  | publishCut k order nowMs hd => exact hpublish k order nowMs

/-- The filters are all that completeness looks at in Redis. -/
theorem Complete.of_seen {C : Cluster β} (h : P.Complete C) {R : Redis β}
    (hR : ∀ k, (R.shards k).seen = (C.redis.shards k).seen) : P.Complete { C with redis := R } := by
  refine ⟨⟨h.row, h.history, h.outbox⟩, h.skips, fun hd e he => ?_⟩
  have hs := h.submitted hd e he
  unfold Seen at hs ⊢
  dsimp only
  rw [hR]
  exact hs

/-- What holds all along a run that started at `C₀`. -/
structure Inv (P : Page D) (C₀ : Cluster β) (S : Recovery β) : Prop where
  target : P.SameTarget C₀ S.cluster
  waiting : S.acked = false → P.Waiting S.cluster.redis
  running : ∀ p ∈ S.running, ∃ log, (S.acked → ¬ NoAck log) ∧
    Safe P.world P.Allowed (fun _ _ _ => True) p log S.cluster
  complete : S.acked → P.Complete S.cluster

theorem inv_step {C₀ : Cluster β} {S S' : Recovery β} {l : Recovery.Label} (hi : P.Inv C₀ S)
    (hst : Recovery.Step P S l S') : P.Inv C₀ S' := by
  cases hst with
  | @deliver C now leaseMs e h hcl =>
    have hw := hi.waiting rfl
    obtain ⟨rfl, rfl⟩ := hw.delivered hcl
    refine ⟨hi.target.trans (.of_known (known_onShard (fun s => s.claim_known now leaseMs) _ _)),
      fun _ => waiting_onShard _ (fun s hs => hs.claim now leaseMs) hw, ?_, fun ha => absurd ha (by simp)⟩
    intro p hp
    cases hp
    exact ⟨[], fun ha => absurd ha (by simp), safe_run _⟩
  | @call C C' c k r acked hans =>
    obtain ⟨log, hlog, hsafe⟩ := hi.running _ rfl
    obtain ⟨⟨hproper, hno, hack⟩, hk⟩ := hsafe C .refl
    -- the ack is the last call, so this one comes before it
    have hfalse : acked = false := by
      cases acked with
      | false => rfl
      | true => exact absurd hno (hlog rfl)
    subst hfalse
    refine ⟨hi.target.trans (sameTarget_answers hproper hans), fun ha => ?_, ?_, fun ha => ?_⟩
    · exact waiting_answers (by simpa using ha) hans (hi.waiting rfl)
    · intro p hp
      cases hp
      refine ⟨⟨c, r⟩ :: log, fun ha hno' => ?_, hk r C' hans⟩
      have hc := hno' _ List.mem_cons_self
      simp only [Bool.false_or] at ha
      rw [hc] at ha
      cases ha
    · simp only [Bool.false_or] at ha
      cases c with
      | ack a =>
        obtain ⟨hR, hl⟩ := hans
        have hseen := (RedisFrontier.sameSeen_ack (F := D.frontier P.pod) a C.redis).seen
        rw [hR] at hseen
        have hcomp := (hack rfl).of_seen hseen
        obtain ⟨R', l'⟩ := C'
        have hl : l' = C.ledger := hl
        subst hl
        exact hcomp
      | _ => cases ha
  | crash =>
    exact ⟨hi.target, hi.waiting, fun p hp => absurd hp (Option.not_mem_none p), hi.complete⟩
  | @crashInAck C a k acked shard l hdec =>
    obtain ⟨log, -, hsafe⟩ := hi.running _ rfl
    obtain ⟨⟨-, -, hack⟩, -⟩ := hsafe C .refl
    refine ⟨hi.target.trans (.of_known (known_ackZrem l _ _)), fun ha => absurd ha (by simp),
      fun p hp => absurd hp (Option.not_mem_none p), fun _ => ?_⟩
    exact (hack rfl).of_seen fun k => congrArg Prod.fst (known_ackZrem l _ _ k)
  | env he =>
    refine ⟨hi.target.trans (sameTarget_env he), fun ha => waiting_env he (hi.waiting ha), ?_,
      fun ha => stable_complete _ _ (hi.complete ha) he⟩
    intro p hp
    obtain ⟨log, hlog, hsafe⟩ := hi.running p hp
    exact ⟨log, hlog, hsafe.env (fun _ _ _ _ _ _ => trivial) he⟩

theorem inv_steps {C₀ : Cluster β} (h0 : P.Fresh C₀) {S : Recovery β} {tr : List Recovery.Label}
    (h : (P.deliveries C₀).Steps ⟨C₀, none, false⟩ tr S) : P.Inv C₀ S := by
  have hinit : P.Inv C₀ ⟨C₀, none, false⟩ :=
    ⟨.refl C₀, fun _ => h0.pinned, fun p hp => absurd hp (Option.not_mem_none p), fun ha => absurd ha (by simp)⟩
  have hst : ∀ S l S', P.Inv C₀ S → (P.deliveries C₀).step S l S' → P.Inv C₀ S' :=
    fun _ _ _ hi hst => inv_step hi hst
  exact h.stable hst hinit

/-- What every run that has acked leaves in the ledger. -/
theorem ledgerResult_acked {C₀ : Cluster β} (h0 : P.Fresh C₀) {S : Recovery β}
    {tr : List Recovery.Label} (h : (P.deliveries C₀).Steps ⟨C₀, none, false⟩ tr S) (ha : S.acked) :
    P.ledgerResult S.cluster.ledger = P.ledgerTarget C₀.ledger := by
  have hi := inv_steps h0 h
  rw [ledgerResult_of_complete (hi.complete ha), hi.target.ledger]

theorem frontierResult_acked {C₀ : Cluster β} (h0 : P.Fresh C₀) {S : Recovery β}
    {tr : List Recovery.Label} (h : (P.deliveries C₀).Steps ⟨C₀, none, false⟩ tr S) (ha : S.acked)
    (hd : P.Dispatched S.cluster) : P.frontierResult S.cluster.redis = P.frontierTarget C₀ := by
  have hi := inv_steps h0 h
  rw [frontierResult_of_complete (hi.complete ha) hd, hi.target.frontier]

/-! ### The values -/

/-- The URLs of a parent's rows. -/
def urlsOf (t : OutboxTable) (u : String) : List String := (t.linksOf u).map OutboxLink.url

/-- All rows of the parent are of one attempt. -/
def OneAttempt (t : OutboxTable) (u a : String) : Prop :=
  ∀ r ∈ t.rows, r.parentUrl = u → r.parentAttemptId = a

/-- A link whose URL has no row gets one. -/
theorem urlsOf_insert {t : OutboxTable} {u a : String} (ha : OneAttempt t u a) (c : UrlEntry) :
    OneAttempt (t.insert u a c) u a ∧ urlsOf (t.insert u a c) u =
      if c.url.asStr ∈ urlsOf t u then urlsOf t u else urlsOf t u ++ [c.url.asStr] := by
  have hconf : t.conflicts u a c.url.asStr = true ↔ c.url.asStr ∈ urlsOf t u := by
    rw [OutboxTable.conflicts_iff]
    simp only [urlsOf, OutboxTable.linksOf, List.map_map, List.mem_map, List.mem_filter, beq_iff_eq]
    constructor
    · rintro ⟨r, hr, hp, -, hurl⟩
      exact ⟨r, ⟨hr, hp⟩, hurl⟩
    · rintro ⟨r, ⟨hr, hp⟩, hurl⟩
      exact ⟨r, hr, hp, ha r hr hp, hurl⟩
  by_cases hc : t.conflicts u a c.url.asStr = true
  · rw [if_pos (hconf.1 hc)]
    have hins : t.insert u a c = t.next := by simp [OutboxTable.insert, hc]
    rw [hins]
    exact ⟨ha, rfl⟩
  · rw [if_neg fun hm => hc (hconf.2 hm)]
    refine ⟨fun r hr hp => ?_, ?_⟩
    · simp only [OutboxTable.insert, hc, Bool.false_eq_true, if_false, OutboxTable.push,
        List.mem_append, List.mem_singleton] at hr
      rcases hr with hr | rfl
      · exact ha r hr hp
      · rfl
    · simp [urlsOf, OutboxTable.insert, hc, OutboxTable.push, OutboxTable.linksOf, OutboxRow.link]

/-- One row for each link. -/
theorem urlsOf_foldl_insert {u a : String} (children : List UrlEntry) : ∀ {t : OutboxTable},
    OneAttempt t u a → (urlsOf t u).Nodup →
    (urlsOf (children.foldl (.insert u a) t) u).Nodup ∧
      ∀ x, x ∈ urlsOf (children.foldl (.insert u a) t) u ↔
        x ∈ urlsOf t u ∨ ∃ e ∈ children, e.url.asStr = x := by
  induction children with
  | nil => intro t _ hnd; exact ⟨hnd, by simp⟩
  | cons c children ih =>
    intro t ha hnd
    obtain ⟨ha', hurls⟩ := urlsOf_insert ha c
    rw [List.foldl_cons]
    by_cases hc : c.url.asStr ∈ urlsOf t u
    · rw [if_pos hc] at hurls
      obtain ⟨h1, h2⟩ := ih ha' (by rw [hurls]; exact hnd)
      refine ⟨h1, fun x => (h2 x).trans ?_⟩
      rw [hurls, List.exists_mem_cons_iff]
      constructor
      · rintro (hx | hx)
        · exact .inl hx
        · exact .inr (.inr hx)
      · rintro (hx | rfl | hx)
        · exact .inl hx
        · exact .inl hc
        · exact .inr hx
    · rw [if_neg hc] at hurls
      have hnd' : (urlsOf t u ++ [c.url.asStr]).Nodup := by
        rw [List.nodup_append]
        refine ⟨hnd, List.nodup_singleton _, fun x hx y hy hxy => ?_⟩
        rw [List.mem_singleton] at hy
        exact hc (hy ▸ hxy ▸ hx)
      obtain ⟨h1, h2⟩ := ih ha' (by rw [hurls]; exact hnd')
      refine ⟨h1, fun x => (h2 x).trans ?_⟩
      rw [hurls, List.exists_mem_cons_iff, List.mem_append, List.mem_singleton, or_assoc]
      exact or_congr_right (or_congr_left eq_comm)

theorem links_eq : P.links = if P.deps.linkDispatch = .durableOutbox then P.outbound.kept else [] := by
  unfold links UrlPipeline.successRecord
  dsimp only
  split
  · rename_i h
    exact (if_pos h).symm
  · rename_i h
    have hne : P.deps.linkDispatch ≠ .durableOutbox := by
      intro hd
      have h : P.deps.linkDispatch = .direct := h
      rw [hd] at h
      cases h
    exact (if_neg hne).symm

theorem ledgerTarget_fresh {C : Cluster β} (h : P.Fresh C) :
    (P.ledgerTarget C.ledger).succeeded = 1 ∧
      ((P.ledgerTarget C.ledger).outbox.map OutboxLink.url).Nodup ∧
      ∀ x, x ∈ (P.ledgerTarget C.ledger).outbox.map OutboxLink.url ↔
        P.deps.linkDispatch = .durableOutbox ∧ ∃ e ∈ P.outbound.kept, e.url.asStr = x := by
  have hnone : C.ledger.outbox.linksOf P.url = [] := by
    unfold OutboxTable.linksOf
    rw [List.map_eq_nil_iff, List.filter_eq_nil_iff]
    intro r hr hp
    exact h.outbox r hr (by simpa using hp)
  have hempty : urlsOf C.ledger.outbox P.url = [] := by rw [urlsOf, hnone, List.map_nil]
  have hone : OneAttempt C.ledger.outbox P.url P.attemptId :=
    fun r hr hp => absurd hp (h.outbox r hr)
  have hnodup : (urlsOf C.ledger.outbox P.url).Nodup := by
    rw [hempty]
    exact .nil
  obtain ⟨hnd, hmem⟩ := urlsOf_foldl_insert P.links hone hnodup
  refine ⟨?_, hnd, fun x => (hmem x).trans ?_⟩
  · have hcount : C.ledger.history.countP (HistoryRow.isSuccess P.url) = 0 := by
      rw [List.countP_eq_zero]
      intro r hr hs
      simp only [HistoryRow.isSuccess, Bool.and_eq_true, beq_iff_eq] at hs
      obtain ⟨hu, hev⟩ := hs
      have hnot := (h.history r hr hu).2
      split at hev
      · rename_i path hp
        exact hnot path hp
      · cases hev
    have hany : C.ledger.history.any P.attempted = false := by
      rw [List.any_eq_false]
      intro r hr hs
      simp only [attempted, Bool.and_eq_true, beq_iff_eq] at hs
      have hnone := (h.history r hr hs.1).1
      rw [hnone] at hs
      cases hs.2
    simp [ledgerTarget, hcount, hany]
  · rw [hempty, links_eq]
    by_cases hd : P.deps.linkDispatch = .durableOutbox
    · simp [hd]
    · simp [hd]

end Page

/-- **Crash idempotence.** Two runs over the same page, however often their deliveries were cut off,
leave the same ledger, and the same frontier once the links are dispatched. -/
theorem redelivery_idempotent {D : Deployment β} (P : Page D) {C : Cluster β} (h0 : P.Fresh C)
    {S S' : Recovery β} {tr tr' : List Recovery.Label}
    (h : (P.deliveries C).Steps ⟨C, none, false⟩ tr S) (ha : S.acked)
    (h' : (P.deliveries C).Steps ⟨C, none, false⟩ tr' S') (ha' : S'.acked) :
    P.ledgerResult S.cluster.ledger = P.ledgerResult S'.cluster.ledger ∧
    (P.Dispatched S.cluster → P.Dispatched S'.cluster →
      P.frontierResult S.cluster.redis = P.frontierResult S'.cluster.redis) ∧
    (P.ledgerResult S.cluster.ledger).row =
      some (.succeeded, 0, some (contentHash P.resp.body), P.entry.depth) ∧
    (P.ledgerResult S.cluster.ledger).succeeded = 1 ∧
    ((P.ledgerResult S.cluster.ledger).outbox.map OutboxLink.url).Nodup ∧
    ∀ x, x ∈ (P.ledgerResult S.cluster.ledger).outbox.map OutboxLink.url ↔
      P.deps.linkDispatch = .durableOutbox ∧ ∃ e ∈ P.outbound.kept, e.url.asStr = x := by
  have hl := Page.ledgerResult_acked h0 h ha
  have hl' := Page.ledgerResult_acked h0 h' ha'
  refine ⟨hl.trans hl'.symm, fun hd hd' => ?_, ?_⟩
  · exact (Page.frontierResult_acked h0 h ha hd).trans (Page.frontierResult_acked h0 h' ha' hd').symm
  · rw [hl]
    exact ⟨rfl, Page.ledgerTarget_fresh h0⟩

/-! ### A page cut off after its commit -/

namespace Page

variable {D : Deployment β} (P : Page D)

/-- The page as a visit of its pod. -/
def visit : Visit D where
  pod := P.pod
  pipeline := P.pipeline
  resp := P.resp
  doc := P.doc
  blobPath := "blobs/1"
  wake := .ok ⟨P.host, 0⟩
  clock := 0
  nowMs := 0
  order := ⟨id, HashOrder.perm_id⟩
  allowed := not_blocked
  clean := P.clean

/-- The one answer of a visit that may be an error. -/
def isOk : (c : Call) → c.Answer → Bool
  | .submitBatch _, .error _ => false
  | _, _ => true

theorem answers_serve {C : Cluster β} {c : Call} (h : isOk c (P.visit.serve C c).1) :
    P.answers C c (P.visit.serve C c).1 (P.visit.serve C c).2 := by
  cases c with
  | submitBatch es =>
    refine ⟨⟨P.visit.order, P.visit.nowMs, rfl⟩, ?_, rfl⟩
    generalize (P.visit.serve C (.submitBatch es)).1 = r at h
    cases r with
    | error e => cases h
    | ok outcome => exact ⟨outcome, rfl⟩
  | recordFetch url => exact ⟨⟨_, rfl⟩, rfl⟩
  | recordFailure url kind hint => exact ⟨⟨_, rfl⟩, rfl⟩
  | storeWrite record => exact ⟨⟨_, rfl⟩, rfl⟩
  | adapterExtract adapter resp => exact ⟨.inr rfl, rfl⟩
  | now => rfl
  | _ => exact ⟨rfl, rfl⟩

/-- The first `n` calls of a delivery, answered as in a visit: what is left of it, the cluster, and
whether it has acked. -/
def play : Nat → Pipe Unit → Cluster β → Option (Pipe Unit × Cluster β × Bool)
  | 0, p, C => some (p, C, false)
  | _ + 1, .pure a, C => some (.pure a, C, false)
  | n + 1, .call c k, C =>
    let (r, C') := P.visit.serve C c
    if isOk c r then (play n (k r) C').map fun x => (x.1, x.2.1, c.isAck || x.2.2) else none

theorem steps_play (C₀ : Cluster β) : ∀ {n : Nat} {p p' : Pipe Unit} {C C' : Cluster β} {b b' : Bool},
    P.play n p C = some (p', C', b') →
      ∃ tr, (P.deliveries C₀).Steps ⟨C, some p, b⟩ tr ⟨C', some p', b || b'⟩
  | 0, p, p', C, C', b, b', h => by
    cases h
    rw [Bool.or_false]
    exact ⟨[], .nil _⟩
  | n + 1, .pure a, p', C, C', b, b', h => by
    cases h
    rw [Bool.or_false]
    exact ⟨[], .nil _⟩
  | n + 1, .call c k, p', C, C', b, b', h => by
    simp only [play, Option.ite_none_right_eq_some, Option.map_eq_some_iff] at h
    obtain ⟨hok, ⟨q, C₁, b₁⟩, hrest, heq⟩ := h
    cases heq
    obtain ⟨tr, hsteps⟩ := steps_play C₀ (b := b || c.isAck) hrest
    rw [Bool.or_assoc] at hsteps
    exact ⟨_, .cons (.call (P.answers_serve hok)) hsteps⟩

/-- A claim of the page's shard. -/
def claimed (now leaseMs : Int) (C : Cluster β) : Cluster β :=
  { C with redis := onShard P.shard (fun s => (s.claim now leaseMs).1) C.redis }

/-- The cluster after a delivery of at most `n` calls. -/
def delivered (n : Nat) (now : Int) (C : Cluster β) : Cluster β :=
  ((P.play n P.pipeline.run (P.claimed now 5 C)).map (·.2.1)).getD C

/-- A reclaim and a promotion of the page's shard. -/
def ticked (now : Int) (C : Cluster β) : Cluster β :=
  let R := onShard P.shard (fun s => (s.reclaim now 10).1) C.redis
  { C with redis := onShard P.shard (fun s => (s.promote now 10).1) R }

/-- The page is the next to be claimed. -/
def Next (now : Int) (C : Cluster β) : Prop :=
  parseClaimValue D.wire ((C.redis.shards P.shard).claim now 5).2 =
    .ok (.claimed P.urlId P.entry P.host)

instance (now : Int) (C : Cluster β) : Decidable (P.Next now C) :=
  inferInstanceAs (Decidable (_ = _))

theorem steps_delivered (C₀ : Cluster β) {C : Cluster β} {n : Nat} {now : Int} {b : Bool} (hn : P.Next now C)
    (hb : (P.play n P.pipeline.run (P.claimed now 5 C)).map (·.2.2) = some b) :
    ∃ tr p, (P.deliveries C₀).Steps ⟨C, none, false⟩ tr ⟨P.delivered n now C, some p, b⟩ := by
  obtain ⟨⟨p, C', b'⟩, hplay, rfl⟩ := Option.map_eq_some_iff.1 hb
  obtain ⟨tr, hsteps⟩ := P.steps_play C₀ (b := false) hplay
  have hC' : P.delivered n now C = C' := by simp [delivered, hplay]
  rw [hC']
  rw [Bool.false_or] at hsteps
  exact ⟨_, p, .cons (.deliver hn) hsteps⟩

/-- Cut off after `n` calls, reclaimed, and delivered again. -/
theorem steps_cut (C₀ : Cluster β) {C : Cluster β} {n m : Nat} (now later : Int) {b : Bool} (hn : P.Next now C)
    (hcut : (P.play n P.pipeline.run (P.claimed now 5 C)).map (·.2.2) = some false)
    (hn' : P.Next later (P.ticked later (P.delivered n now C)))
    (hb : (P.play m P.pipeline.run (P.claimed later 5 (P.ticked later (P.delivered n now C)))).map
      (·.2.2) = some b) : ∃ tr p, (P.deliveries C₀).Steps ⟨C, none, false⟩ tr
        ⟨P.delivered m later (P.ticked later (P.delivered n now C)), some p, b⟩ := by
  obtain ⟨tr, p, h1⟩ := P.steps_delivered C₀ hn hcut
  obtain ⟨tr', p', h2⟩ := P.steps_delivered C₀ hn' hb
  refine ⟨_, p', h1.append (.cons .crash (.cons (.env (.reclaim P.shard later 10))
    (.cons (.env (.promote P.shard later 10)) h2)))⟩

/-- `https://a.test/` with one link, to its own host. -/
def sample (dispatch : LinkDispatch) : Page Deployment.sample where
  pod := ⟨0, Deployment.sample_first⟩
  deps := { WorkerDeps.sample with linkDispatch := dispatch }
  entry := .seedA
  host := "a.test"
  resp := ⟨UrlEntry.seedA.url, 200, [], []⟩
  doc := ⟨UrlEntry.seedA.url, 200, none, none, [UrlEntry.seedA'.url]⟩
  host_eq := UrlEntry.seedA_host
  owned := by decide +kernel
  allowed := rfl
  clean := classifyStatus_ok
  uncapped _ := rfl

end Page

/-- The shard once the page is admitted. -/
def Shard.admitted : Shard (List UrlId) :=
  ((Shard.fresh []).submit .exact Wire.idA "a.test" Wire.bytesA 0).1

/-- Its host has been promoted. -/
def Cluster.waiting : Cluster (List UrlId) :=
  ⟨⟨fun k => if k = 0 then (Shard.admitted.promote 0 10).1 else .fresh [], []⟩, .empty⟩

theorem Shard.pinned_admitted :
    Shard.admitted.Pinned .exact .sample Wire.idA .seedA "a.test" := by
  refine ⟨by decide +kernel, by decide +kernel, fun x hx => ?_, fun x hx => ?_⟩
  · by_contra hne
    rw [admitted, submit_eq] at hx
    simp [Sketch.exact, Shard.fresh, accept, hne] at hx
  · rw [admitted, submit_eq] at hx
    simp [Sketch.exact, Shard.fresh, accept] at hx

theorem Page.fresh_waiting : (Page.sample .direct).Fresh .waiting where
  pinned := Shard.pinned_admitted.promote 0 10
  history := by simp [Cluster.waiting, Ledger.empty]
  outbox := by simp [Cluster.waiting, Ledger.empty, OutboxTable.empty]

/-- A delivery cut off after its commit and delivered again, and one that is not cut off. -/
theorem redelivery_idempotent_cut : ∃ tr tr' S S',
    ((Page.sample .direct).deliveries .waiting).Steps ⟨.waiting, none, false⟩ tr S ∧ S.acked ∧
    ((Page.sample .direct).deliveries .waiting).Steps ⟨.waiting, none, false⟩ tr' S' ∧ S'.acked ∧
    (Page.sample .direct).ledgerResult S.cluster.ledger =
      (Page.sample .direct).ledgerResult S'.cluster.ledger ∧
    (Page.sample .direct).frontierResult S.cluster.redis =
      (Page.sample .direct).frontierResult S'.cluster.redis := by
  have hnext : (Page.sample .direct).Next 0 .waiting := by decide +kernel
  obtain ⟨tr, p, hcut⟩ := (Page.sample .direct).steps_cut .waiting (n := 8) (m := 10) 0 5
    (b := true) hnext (by decide +kernel) (by decide +kernel) (by decide +kernel)
  obtain ⟨tr', p', hfree⟩ := (Page.sample .direct).steps_delivered .waiting (n := 10)
    (b := true) hnext (by decide +kernel)
  have hsame := redelivery_idempotent (.sample .direct) Page.fresh_waiting hcut rfl hfree rfl
  exact ⟨tr, tr', _, _, hcut, rfl, hfree, rfl, hsame.1, hsame.2.1 (fun h => by cases h)
    fun h => by cases h⟩

end Crawlrs
