import Crawlrs.L4Runtime.Cluster

/-!
# One publish call (`crawlrs-metadata/src/store.rs`, `crawlrs-runtime/src/outbox.rs`)

`publish` with the ship closure of `publish_one_batch`, for a frontier that owns
any set of shards: lock the first `max` unpublished rows, read them back, hand
them to `submit_batch`, mark them published. The three stages share one
transaction, so the first row that stops one of them stops the call.

* `publish_ok`: a batch the frontier can take whole is published whole.
* `publish_error`: one row that does not read back, or is not the frontier's,
  and nothing has happened.
* `publish_all_or_nothing`: what follows for calls that reach the whole backlog,
  however often they are repeated.
-/
namespace Crawlrs

variable {β : Type}

namespace Ledger

/-- `mark_discovered_skipped` for every URL rejected by quota, as the worker and the publisher
both record them.
mirrors crates/crawlrs-runtime/src/outbox.rs:129-142 -/
def skipRejected (runId : String) (rejected : List UrlEntry) (l : Ledger) : Ledger :=
  rejected.foldl (fun l e => (l.markDiscoveredSkipped e.url runId e.depth e.discoveredFrom .maxUrls).2) l

theorem skipRejected_cons (runId : String) (e : UrlEntry) (rejected : List UrlEntry) (l : Ledger) :
    l.skipRejected runId (e :: rejected) =
      ((l.markDiscoveredSkipped e.url runId e.depth e.discoveredFrom .maxUrls).2).skipRejected runId
        rejected := rfl

theorem skipRejected_outbox (runId : String) (rejected : List UrlEntry) :
    ∀ l : Ledger, (l.skipRejected runId rejected).outbox = l.outbox := by
  induction rejected with
  | nil => intro l; rfl
  | cons e es ih => intro l; rw [skipRejected_cons, ih, markDiscoveredSkipped_outbox]

end Ledger

/-- What a publish call runs with. -/
structure Publisher (β : Type) where
  frontier : RedisFrontier
  wire : Wire
  bloom : Sketch UrlId β
  parse : ParseUrl
  runId : String

/-- One call: how the batch's hash map iterates, the clock, and `max`. -/
structure PublishCall where
  order : HashOrder
  nowMs : Int
  max : UInt64

/-- The call locks the whole backlog. -/
def PublishCall.Reaches (call : PublishCall) (C : Cluster β) : Prop :=
  C.ledger.outbox.unpublished.length ≤ call.max.toNat ∧ call.max.toNat < 2 ^ 63

namespace Publisher

variable (P : Publisher β)

/-- The ship closure.
mirrors crates/crawlrs-runtime/src/outbox.rs:124-146 -/
def ship (order : HashOrder) (nowMs : Int) (entries : List UrlEntry) (C : Cluster β) :
    Except Error Unit × Cluster β :=
  match P.frontier.submitBatch P.wire P.bloom order nowMs entries C.redis with
  | (.error e, R) => (.error e, { C with redis := R })
  | (.ok outcome, R) => (.ok (), ⟨R, C.ledger.skipRejected P.runId outcome.rejectedUrls⟩)

/-- An error drops the transaction, so the rows stay unpublished.
mirrors crates/crawlrs-metadata/src/store.rs:449-535 -/
def publish (call : PublishCall) (C : Cluster β) : Except Error Nat × Cluster β :=
  if 2 ^ 63 ≤ call.max.toNat then (.error OutboxTable.negativeLimit, C)
  else
    match C.ledger.outbox.leaseBatch [] call.max.toNat with
    | [] => (.ok 0, C)
    | rows =>
      match OutboxRow.readAll P.parse rows with
      | .error e => (.error e, C)
      | .ok entries =>
        match P.ship call.order call.nowMs entries C with
        | (.error e, C) => (.error e, C)
        | (.ok (), C) => (.ok rows.length, { C with ledger := { C.ledger with
            outbox := C.ledger.outbox.markPublished (rows.map OutboxRow.id) } })

/-- Calls one after the other. -/
def publishes (calls : List PublishCall) (C : Cluster β) : Cluster β :=
  calls.foldl (fun C call => (P.publish call C).2) C

/-- The row reads back, and the frontier takes what it reads back as. -/
def Ships (r : OutboxRow) : Prop := ∃ e, r.read P.parse = .ok e ∧ P.frontier.Accepts e

/-! ## The two outcomes of a batch -/

section Ship

variable {P}

/-- One row of the batch stops the call before any script has run. -/
theorem readShip_error {rows : List OutboxRow} (h : ¬ ∀ r ∈ rows, P.Ships r) (order : HashOrder)
    (nowMs : Int) (C : Cluster β) : (∃ e, OutboxRow.readAll P.parse rows = .error e) ∨
      ∃ entries e, OutboxRow.readAll P.parse rows = .ok entries ∧
        P.ship order nowMs entries C = (.error e, C) := by
  cases hread : OutboxRow.readAll P.parse rows with
  | error e => exact .inl ⟨e, rfl⟩
  | ok entries =>
    obtain ⟨hrows, -⟩ := OutboxRow.readAll_ok hread
    have hex : ∃ e ∈ entries, ¬ P.frontier.Accepts e := by
      by_contra hall
      apply h
      intro r hr
      obtain ⟨e, he, hre⟩ := hrows r hr
      refine ⟨e, hre, ?_⟩
      by_contra ha
      exact hall ⟨e, he, ha⟩
    obtain ⟨err, herr⟩ := RedisFrontier.submitBatch_error (W := P.wire) (B := P.bloom) order nowMs
      C.redis hex
    exact .inr ⟨entries, err, rfl, by rw [ship, herr]⟩

/-- A batch the frontier takes: every row is settled and the outbox is as it was. -/
theorem readShip_ok {rows : List OutboxRow} (h : ∀ r ∈ rows, P.Ships r) (order : HashOrder)
    (nowMs : Int) (C : Cluster β) : ∃ entries C', OutboxRow.readAll P.parse rows = .ok entries ∧
      P.ship order nowMs entries C = (.ok (), C') ∧ C'.ledger.outbox = C.ledger.outbox ∧
      C.redis.Grows P.bloom C'.redis ∧
      ∀ r ∈ rows, ∃ e, r.read P.parse = .ok e ∧
        RedisFrontier.Settled P.bloom C'.redis (P.frontier.policy.shardKey e.url) (P.wire.idOf e) := by
  have hreads : ∀ r ∈ rows, ∃ e, r.read P.parse = .ok e :=
    fun r hr => (h r hr).imp fun e he => he.1
  obtain ⟨entries, hread⟩ := OutboxRow.readAll_of_forall hreads
  obtain ⟨hrows, hentries⟩ := OutboxRow.readAll_ok hread
  have hacc : ∀ e ∈ entries, P.frontier.Accepts e := by
    intro e he
    obtain ⟨r, hr, hre⟩ := hentries e he
    obtain ⟨e', hre', ha⟩ := h r hr
    rw [hre] at hre'
    cases hre'
    exact ha
  obtain ⟨outcome, hok⟩ := RedisFrontier.submitBatch_ok (W := P.wire) (B := P.bloom) order nowMs
    C.redis hacc
  have hset := RedisFrontier.submitBatch_settled (W := P.wire) (B := P.bloom) order nowMs C.redis
    hacc
  have hgrows := RedisFrontier.submitBatch_grows (F := P.frontier) (W := P.wire) (B := P.bloom)
    order nowMs entries C.redis
  have hship : P.ship order nowMs entries C = (.ok (),
      ⟨(P.frontier.submitBatch P.wire P.bloom order nowMs entries C.redis).2,
        C.ledger.skipRejected P.runId outcome.rejectedUrls⟩) := by
    unfold ship
    split
    · rename_i e R heq
      rw [heq] at hok
      cases hok
    · rename_i o R heq
      rw [heq] at hok ⊢
      cases hok
      rfl
  refine ⟨entries, _, hread, hship, Ledger.skipRejected_outbox _ _ _, hgrows, fun r hr => ?_⟩
  obtain ⟨e, he, hre⟩ := hrows r hr
  exact ⟨e, hre, hset e he⟩

end Ship

/-! ## Calls that reach the whole backlog -/

variable {P} {call : PublishCall} {C : Cluster β}

theorem leaseBatch_of_reaches (h : call.Reaches C) :
    C.ledger.outbox.leaseBatch [] call.max.toNat = C.ledger.outbox.unpublished := by
  have hall : C.ledger.outbox.unpublished.filter (fun r => !([] : List Nat).contains r.id) =
      C.ledger.outbox.unpublished := by simp
  rw [OutboxTable.leaseBatch, hall, List.take_of_length_le h.1]

theorem publish_error (h : call.Reaches C)
    (hbad : ¬ ∀ r ∈ C.ledger.outbox.unpublished, P.Ships r) :
    ∃ e, P.publish call C = (.error e, C) := by
  have hlim : ¬ 2 ^ 63 ≤ call.max.toNat := Nat.not_le.2 h.2
  have hne : C.ledger.outbox.unpublished ≠ [] := by
    intro hnil
    rw [hnil] at hbad
    exact hbad fun r hr => absurd hr List.not_mem_nil
  unfold publish
  rw [if_neg hlim, leaseBatch_of_reaches h]
  split
  · rename_i hnil
    exact absurd hnil hne
  · rcases readShip_error hbad call.order call.nowMs C with ⟨e, he⟩ | ⟨entries, e, he, hs⟩
    · exact ⟨e, by rw [he]⟩
    · exact ⟨e, by rw [he]; dsimp only; rw [hs]⟩

theorem publish_ok (h : call.Reaches C)
    (hgood : ∀ r ∈ C.ledger.outbox.unpublished, P.Ships r) :
    (P.publish call C).1 = .ok C.ledger.outbox.unpublished.length ∧
      (P.publish call C).2.ledger.outbox = C.ledger.outbox.markPublished
        (C.ledger.outbox.unpublished.map OutboxRow.id) := by
  have hlim : ¬ 2 ^ 63 ≤ call.max.toNat := Nat.not_le.2 h.2
  unfold publish
  rw [if_neg hlim, leaseBatch_of_reaches h]
  split
  · rename_i hnil
    rw [hnil]
    exact ⟨rfl, (OutboxTable.markPublished_nil _).symm⟩
  · obtain ⟨entries, C', he, hs, hout, -⟩ := readShip_ok hgood call.order call.nowMs C
    rw [he]
    dsimp only
    rw [hs]
    exact ⟨rfl, by dsimp only; rw [hout]⟩

/-- Every row is published once a call that takes the whole backlog has gone through. -/
theorem unpublished_markPublished_all (t : OutboxTable) :
    (t.markPublished (t.unpublished.map OutboxRow.id)).unpublished = [] := by
  rw [OutboxTable.unpublished_markPublished, List.filter_eq_nil_iff]
  intro r hr
  simp only [List.contains_eq_mem, Bool.not_eq_true', decide_eq_false_iff_not, not_not]
  exact List.mem_map_of_mem hr

/-- A backlog with a row that stops it stays as it is. -/
theorem publishes_error {calls : List PublishCall} (h : ∀ call ∈ calls, call.Reaches C)
    (hbad : ¬ ∀ r ∈ C.ledger.outbox.unpublished, P.Ships r) : P.publishes calls C = C := by
  induction calls with
  | nil => rfl
  | cons call calls ih =>
    obtain ⟨e, he⟩ := publish_error (h call List.mem_cons_self) hbad
    rw [publishes, List.foldl_cons, he]
    exact ih fun c hc => h c (List.mem_cons_of_mem _ hc)

end Publisher

/-- A row the frontier can take is published by every call that reaches it, whatever else waits. -/
def BadRowsIsolated : Prop :=
  ∀ (β : Type) (P : Publisher β) (C : Cluster β) (call : PublishCall), call.Reaches C →
    ∀ r ∈ C.ledger.outbox.unpublished, P.Ships r →
      r ∉ (P.publish call C).2.ledger.outbox.unpublished

/-- **All or nothing.** One call publishes the whole backlog, or no number of calls does anything. -/
theorem publish_all_or_nothing (P : Publisher β) (C : Cluster β) (call : PublishCall)
    (h : call.Reaches C) :
    ((∀ r ∈ C.ledger.outbox.unpublished, P.Ships r) →
      (P.publish call C).1 = .ok C.ledger.outbox.unpublished.length ∧
      (P.publish call C).2.ledger.outbox =
        C.ledger.outbox.markPublished (C.ledger.outbox.unpublished.map OutboxRow.id) ∧
      (P.publish call C).2.ledger.outbox.unpublished = []) ∧
    ((∃ r ∈ C.ledger.outbox.unpublished, ¬ P.Ships r) →
      (∃ e, P.publish call C = (.error e, C)) ∧
      ∀ calls : List PublishCall, (∀ c ∈ calls, c.Reaches C) → P.publishes calls C = C) := by
  refine ⟨fun hgood => ?_, fun hbad => ?_⟩
  · obtain ⟨hn, hout⟩ := Publisher.publish_ok h hgood
    refine ⟨hn, hout, ?_⟩
    rw [hout]
    exact Publisher.unpublished_markPublished_all _
  · have hbad : ¬ ∀ r ∈ C.ledger.outbox.unpublished, P.Ships r := by
      obtain ⟨r, hr, hs⟩ := hbad
      exact fun hall => hs (hall r hr)
    exact ⟨Publisher.publish_error h hbad, fun calls hc => Publisher.publishes_error hc hbad⟩

/-! ### Two shards, one of them owned -/

/-- `a.test` is on shard 0, which is owned, and `b.test` on shard 1. -/
def Publisher.sample : Publisher (List UrlId) where
  frontier := ⟨⟨2, HostHashShardPolicy.two_shards⟩, [0], ⟨none, none, fun _ => none⟩⟩
  wire := .sample
  bloom := .exact
  parse s :=
    if s = "https://a.test/" then .ok UrlEntry.seedA.url
    else if s = "https://a.test/b" then .ok UrlEntry.seedA'.url
    else if s = "https://b.test/" then .ok UrlEntry.seedB.url
    else .error "relative URL without a base"
  runId := "run-1"

def PublishCall.sample : PublishCall := ⟨⟨id, HashOrder.perm_id⟩, 0, 256⟩

/-- Empty shards, and an outbox with the given links of `https://a.test/`. -/
def Cluster.withLinks (links : List UrlEntry) : Cluster (List UrlId) :=
  ⟨⟨fun _ => .fresh [], []⟩, { Ledger.empty with outbox := links.foldl (.insert "https://a.test/"
    "s0|50e31edfccebf8eb88f3065e49155e2c|a.test") .empty }⟩

/-- The first row of the outbox, a link to `https://a.test/b`. -/
def OutboxRow.sample : OutboxRow := ⟨1, "https://a.test/b", 0, none, "https://a.test/",
  "s0|50e31edfccebf8eb88f3065e49155e2c|a.test", false⟩

/-- The second row of the outbox. -/
def OutboxRow.second (url : String) : OutboxRow := { OutboxRow.sample with id := 2, url := url }

/-- Two rows on the owned shard go in one call; with a row of the other shard behind it the first
waits, however often the call is repeated. -/
theorem publish_all_or_nothing_own :
    (Publisher.sample.publish .sample (.withLinks [.seedA', .seedA])).1 = .ok 2 ∧
      (Publisher.sample.publish .sample (.withLinks [.seedA', .seedA])).2.ledger.outbox.unpublished = [] ∧
      ∀ n, Publisher.sample.publishes (List.replicate n .sample) (.withLinks [.seedA', .seedB]) =
        .withLinks [.seedA', .seedB] := by
  have hreach : ∀ es ∈ [[UrlEntry.seedA', .seedA], [UrlEntry.seedA', .seedB]],
      PublishCall.sample.Reaches (Cluster.withLinks es) := by
    intro es hes
    simp only [List.mem_cons, List.not_mem_nil, or_false] at hes
    rcases hes with rfl | rfl
    · exact ⟨by decide +kernel, by decide⟩
    · exact ⟨by decide +kernel, by decide⟩
  have hown : ∀ r ∈ (Cluster.withLinks [.seedA', .seedA]).ledger.outbox.unpublished,
      Publisher.sample.Ships r := by
    have hrows : (Cluster.withLinks [.seedA', .seedA]).ledger.outbox.unpublished =
        [.sample, .second "https://a.test/"] := by decide +kernel
    rw [hrows]
    intro r hr
    simp only [List.mem_cons, List.not_mem_nil, or_false] at hr
    rcases hr with rfl | rfl
    · exact ⟨.seedA', by decide +kernel, by decide +kernel⟩
    · exact ⟨.seedA, by decide +kernel, by decide +kernel⟩
  have hforeign : ¬ Publisher.sample.Ships (.second "https://b.test/") := by
    rintro ⟨e, he, hacc⟩
    have hread : (OutboxRow.second "https://b.test/").read Publisher.sample.parse = .ok .seedB := by
      decide +kernel
    rw [hread] at he
    cases he
    exact absurd hacc (by decide +kernel)
  obtain ⟨hcount, -, hnone⟩ := (publish_all_or_nothing .sample _ .sample (hreach _ List.mem_cons_self)).1 hown
  refine ⟨hcount, hnone, fun n => ?_⟩
  have hblocked := (publish_all_or_nothing .sample (.withLinks [.seedA', .seedB]) .sample
    (hreach _ (by simp))).2 ⟨.second "https://b.test/", by decide +kernel, hforeign⟩
  refine hblocked.2 _ fun c hc => ?_
  rw [List.eq_of_mem_replicate hc]
  exact hreach _ (by simp)

/-- The row of the link to `a.test` waits with the one the frontier does not own. -/
theorem not_badRowsIsolated : ¬ BadRowsIsolated := by
  intro h
  refine h _ .sample (.withLinks [.seedA', .seedB]) .sample ⟨by decide +kernel, by decide⟩ .sample
    (by decide +kernel) ⟨.seedA', by decide +kernel, by decide +kernel⟩ ?_
  decide +kernel

end Crawlrs
