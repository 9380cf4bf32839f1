import Crawlrs.Core.Pool
import Crawlrs.L3Frontier.System
import Crawlrs.L4Runtime.Client

/-!
# The frontier client, round-trip by round-trip (`frontier.rs`, `host_queue.rs`, `promoter.rs`)

A call of the client is a few round-trips: a script on one shard, or one of the two
commands of an ack. The server executes a round-trip at once; between two of them any
other client may do anything. So a call is a `Prog` over `Trip`s here, and each trip may
fail: the answer is the script's reply or the text of a backend error.

A failed trip ends the call, so that an ack whose `ZREM` failed does not try its `HDEL`;
only a tick goes on, with the next script.

* `interp_claimTrips`, `interp_tickTrips`, `interp_submitBatchTrips`: alone and without a
  failure the programs are the functions of `Client` and `Frontier`.
-/
namespace Crawlrs

variable {β : Type}

open Prog (perform)

/-! ## Round-trips -/

/-- The scripts with their arguments, and the commands of `HostQueueOps::ack`.
mirrors crates/crawlrs-frontier/src/host_queue.rs:108-318 -/
inductive Cmd
  | submit (it : Item) (now : Int)
  | submitBatch (its : List (Item × Int)) (now : Int)
  | claim (now leaseMs : Int)
  | promote (now : Int) (limit : Nat)
  | reclaim (now : Int) (limit : Nat)
  | advanceWake (h : Host) (untilMs : Int)
  | zrem (l : Lease)
  | hdel (l : Lease)

@[reducible] def Cmd.Reply : Cmd → Type
  | .submit .. => Shard.SubmitOutcome
  | .submitBatch .. => Nat × List UrlId
  | .claim .. => Shard.ClaimReply
  | .promote .. | .reclaim .. => Nat
  | .advanceWake .. | .zrem _ | .hdel _ => Unit

structure Trip where
  shard : ShardKey
  cmd : Cmd

/-- The reply, or the text of a connection error. -/
abbrev Trip.Answer (t : Trip) : Type := Except String t.cmd.Reply

/-- What the server does with a command on one shard. -/
def Cmd.exec (W : Wire) (B : Sketch UrlId β) (s : Shard β) : (c : Cmd) → Shard β × c.Reply
  | .submit it now => s.submit B (W.idOf it.entry) it.host (W.encode it.entry) now
  | .submitBatch its now => Shard.submitBatch B now
      (its.map fun p => ⟨W.idOf p.1.entry, p.1.host, W.encode p.1.entry, p.2⟩) s (0, [])
  | .claim now leaseMs => s.claim now leaseMs
  | .promote now limit => s.promote now limit
  | .reclaim now limit => s.reclaim now limit
  | .advanceWake h untilMs => (s.advanceWake h untilMs, ())
  | .zrem l => (s.ackZrem l, ())
  | .hdel l => (s.ackHdel l.urlId, ())

/-- mirrors crates/crawlrs-frontier/src/frontier.rs:52-77 -/
inductive ClientError
  | routing (e : RedisFrontierError)
  | reply (e : HostQueueError)
  | backend (text : String)
deriving DecidableEq, Repr

/-- A call under way. -/
abbrev Trips := Prog Trip Trip.Answer

def trip (t : Trip) : Trips t.Answer := perform t

/-! ## The operations on a shard -/

namespace HostQueueOps

/-- mirrors crates/crawlrs-frontier/src/host_queue.rs:110-145 -/
def submit (k : ShardKey) (it : Item) (now : Int) : Trips (Except String Shard.SubmitOutcome) :=
  trip ⟨k, .submit it now⟩

/-- mirrors crates/crawlrs-frontier/src/host_queue.rs:160-200 -/
def submitBatch (k : ShardKey) (its : List (Item × Int)) (now : Int) :
    Trips (Except String (Nat × List UrlId)) :=
  if its = [] then pure (.ok (0, []))
  else trip ⟨k, .submitBatch its now⟩

/-- mirrors crates/crawlrs-frontier/src/host_queue.rs:206-228 -/
def claim (W : Wire) (k : ShardKey) (now leaseMs : Int) : Trips (Except ClientError ClaimRaw) := do
  match ← (trip ⟨k, .claim now leaseMs⟩ : Trips (Except String Shard.ClaimReply)) with
  | .error text => pure (.error (.backend text))
  | .ok reply =>
    match parseClaimValue W reply with
    | .error e => pure (.error (.reply e))
    | .ok raw => pure (.ok raw)

/-- mirrors crates/crawlrs-frontier/src/host_queue.rs:231-249 -/
def advanceWake (k : ShardKey) (h : Host) (untilMs : Int) : Trips (Except String Unit) :=
  trip ⟨k, .advanceWake h untilMs⟩

/-- mirrors crates/crawlrs-frontier/src/host_queue.rs:254-271 -/
def promote (k : ShardKey) (now : Int) (limit : Nat) : Trips (Except String Nat) :=
  trip ⟨k, .promote now limit⟩

/-- mirrors crates/crawlrs-frontier/src/host_queue.rs:275-293 -/
def reclaim (k : ShardKey) (now : Int) (limit : Nat) : Trips (Except String Nat) :=
  trip ⟨k, .reclaim now limit⟩

/-- mirrors crates/crawlrs-frontier/src/host_queue.rs:299-318 -/
def ack (k : ShardKey) (l : Lease) : Trips (Except String Unit) := do
  match ← (trip ⟨k, .zrem l⟩ : Trips (Except String Unit)) with
  | .error text => pure (.error text)
  | .ok () => trip ⟨k, .hdel l⟩

end HostQueueOps

/-! ## The calls -/

namespace RedisClient

variable (F : RedisClient) (W : Wire)

/-- `shard_of`, with the host it found.
mirrors crates/crawlrs-frontier/src/frontier.rs:242-256 -/
def route (e : UrlEntry) : Except RedisFrontierError (ShardKey × Item) :=
  let shard := F.policy.shardKey e.url
  if shard ∉ F.ownedShards then .error (.shardNotOwned shard F.ownedShards)
  else
    match h : e.url.host with
    | none => .error (.noHost e.url.asStr)
    | some host => .ok (shard, ⟨e, host, h⟩)

def routeAll : List UrlEntry → Except RedisFrontierError (List (ShardKey × Item))
  | [] => .ok []
  | e :: es =>
    match F.route e with
    | .error err => .error err
    | .ok r =>
      match routeAll es with
      | .error err => .error err
      | .ok rs => .ok (r :: rs)

/-- mirrors crates/crawlrs-frontier/src/frontier.rs:262-277 -/
def submitTrips (now : Int) (e : UrlEntry) : Trips (Except ClientError Shard.SubmitOutcome) :=
  match F.route e with
  | .error err => pure (.error (.routing err))
  | .ok (k, it) => do
    match ← HostQueueOps.submit k it now with
    | .error text => pure (.error (.backend text))
    | .ok outcome => pure (.ok outcome)

/-- The loop over the shards of a batch.
mirrors crates/crawlrs-frontier/src/frontier.rs:312-362 -/
def batchTrips (now : Int) (routed : List (ShardKey × Item)) :
    List ShardKey → SubmitBatchOutcome → Trips (Except ClientError SubmitBatchOutcome)
  | [], total => pure (.ok total)
  | k :: ks, total => do
    let items := (routed.filter (·.1 = k)).map Prod.snd
    match ← HostQueueOps.submitBatch k (items.map fun it => (it, F.maxUrls it.host)) now with
    | .error text => pure (.error (.backend text))
    | .ok (queued, rejectedIds) =>
      let rejected := rejectedIds.filterMap fun id =>
        (items.find? fun it => decide (W.idOf it.entry = id)).map Item.entry
      batchTrips now routed ks ⟨total.queued + queued, total.rejectedUrls ++ rejected⟩

/-- mirrors crates/crawlrs-frontier/src/frontier.rs:280-370 -/
def submitBatchTrips (order : HashOrder) (now : Int) (entries : List UrlEntry) :
    Trips (Except ClientError SubmitBatchOutcome) :=
  if entries = [] then pure (.ok {})
  else
    match F.routeAll entries with
    | .error err => pure (.error (.routing err))
    | .ok routed => F.batchTrips W now routed (order.iter (routed.map Prod.fst).dedup) {}

/-- mirrors crates/crawlrs-frontier/src/frontier.rs:386-453 -/
def sweepTrips (now : Int) : List ShardKey → Option Nat → Trips (Except ClientError ClaimOutcome)
  | [], soonest =>
    pure (.ok (match soonest with
      | some ms => .emptyHint ms
      | none => .empty))
  | k :: ks, soonest => do
    match ← HostQueueOps.claim W k now F.leaseMs with
    | .error err => pure (.error err)
    | .ok (.claimed u entry host) => pure (.ok (.claimed u entry (encodeAttempt k u host)))
    | .ok (.emptyHint ms) =>
      sweepTrips now ks (some (match soonest with
        | some prev => min prev ms
        | none => ms))
    | .ok .empty => sweepTrips now ks soonest

/-- `cursor` is what `fetch_add` returned.
mirrors crates/crawlrs-frontier/src/frontier.rs:373-455 -/
def claimTrips (cursor : UInt64) (now : Int) : Trips (Except ClientError ClaimOutcome) :=
  if F.ownedShards = [] then pure (.ok .empty)
  else F.sweepTrips W now (F.ownedShards.rotate (cursor.toNat % F.ownedShards.length)) none

/-- mirrors crates/crawlrs-frontier/src/frontier.rs:502-524 -/
def advanceWakeTrips (host : Host) (untilMs : UInt64) : Trips (Except ClientError Unit) :=
  let shard := F.policy.shardKeyFromHost host
  if shard ∈ F.ownedShards then do
    match ← HostQueueOps.advanceWake shard host untilMs.toInt64.toInt with
    | .error text => pure (.error (.backend text))
    | .ok () => pure (.ok ())
  else pure (.ok ())

/-- mirrors crates/crawlrs-frontier/src/frontier.rs:527-544 -/
def ackTrips (attempt : String) : Trips (Except ClientError Unit) :=
  match decodeAttempt attempt with
  | .error raw => pure (.error (.routing (.malformedAttempt raw)))
  | .ok (shard, u, host) =>
    if shard ∈ F.ownedShards then do
      match ← HostQueueOps.ack shard ⟨u, host⟩ with
      | .error text => pure (.error (.backend text))
      | .ok () => pure (.ok ())
    else pure (.ok ())

/-- A script that fails is logged, and counts for nothing.
mirrors crates/crawlrs-frontier/src/promoter.rs:26-46 -/
def tickTrips (now : Int) : List ShardKey → Nat → Trips (Except ClientError Nat)
  | [], n => pure (.ok n)
  | k :: ks, n => do
    let promoted ← HostQueueOps.promote k now F.tickBatchLimit
    let reclaimed ← HostQueueOps.reclaim k now F.tickBatchLimit
    tickTrips now ks (n + (promoted.toOption.getD 0 + reclaimed.toOption.getD 0))

end RedisClient

/-! ## Alone and without a failure -/

section Alone

variable (W : Wire) (B : Sketch UrlId β)

/-- Every trip is executed, and its reply arrives. -/
def serve (shards : ShardKey → Shard β) (t : Trip) : t.Answer × (ShardKey → Shard β) :=
  let res := t.cmd.exec W B (shards t.shard)
  (.ok res.2, Function.update shards t.shard res.1)

theorem interp_promote (k : ShardKey) (now : Int) (limit : Nat) (shards : ShardKey → Shard β) :
    Prog.interp (serve W B) (HostQueueOps.promote k now limit) shards =
      (.ok ((shards k).promote now limit).2,
        Function.update shards k ((shards k).promote now limit).1) := rfl

theorem interp_reclaim (k : ShardKey) (now : Int) (limit : Nat) (shards : ShardKey → Shard β) :
    Prog.interp (serve W B) (HostQueueOps.reclaim k now limit) shards =
      (.ok ((shards k).reclaim now limit).2,
        Function.update shards k ((shards k).reclaim now limit).1) := rfl

theorem interp_submitBatch (k : ShardKey) {its : List (Item × Int)} (hne : its ≠ []) (now : Int)
    (shards : ShardKey → Shard β) :
    Prog.interp (serve W B) (HostQueueOps.submitBatch k its now) shards =
      (.ok (Cmd.exec W B (shards k) (.submitBatch its now)).2,
        Function.update shards k (Cmd.exec W B (shards k) (.submitBatch its now)).1) := by
  rw [HostQueueOps.submitBatch, if_neg hne]
  rfl

namespace RedisClient

variable {W B} {F : RedisClient}

theorem interp_sweepTrips (now : Int) (ks : List ShardKey) : ∀ (R : Redis β) (soonest : Option Nat),
    Prog.interp (serve W B) (F.sweepTrips W now ks soonest) R.shards =
      ((F.sweep W now ks R soonest).1.mapError .reply, (F.sweep W now ks R soonest).2.shards) := by
  induction ks with
  | nil => intro R soonest; rfl
  | cons k ks ih =>
    intro R soonest
    simp only [sweepTrips, HostQueueOps.claim, trip, Prog.interp_bind, Prog.interp_perform, serve,
      Cmd.exec, sweep]
    cases parseClaimValue W ((R.shards k).claim now F.leaseMs).2 with
    | error e => rfl
    | ok raw =>
      cases raw with
      | claimed u entry host => rfl
      | emptyHint ms => exact ih (setShard R k ((R.shards k).claim now F.leaseMs).1) _
      | empty => exact ih (setShard R k ((R.shards k).claim now F.leaseMs).1) _

theorem interp_claimTrips (now : Int) (C : Connected β) :
    Prog.interp (serve W B) (F.claimTrips W C.claimCursor now) C.redis.shards =
      ((F.claim W now C).1.mapError .reply, (F.claim W now C).2.redis.shards) := by
  unfold claimTrips claim
  split
  · rfl
  · exact interp_sweepTrips now _ C.redis none

theorem interp_tickTrips (now : Int) (ks : List ShardKey) : ∀ (R : Redis β) (n : Nat),
    Prog.interp (serve W B) (F.tickTrips now ks n) R.shards =
      (.ok (F.tickOnce now ks R n).1, (F.tickOnce now ks R n).2.shards) := by
  induction ks with
  | nil => intro R n; rfl
  | cons k ks ih =>
    intro R n
    rw [tickTrips, Prog.interp_bind, Prog.interp_bind, interp_promote, interp_reclaim]
    simp only [Function.update_self, Function.update_idem, Except.toOption, Option.getD_some]
    exact ih (setShard R k (F.tickShard now (R.shards k)).1) _

/-- An item with its shard, as the client resolves it. -/
def routed (W : Wire) (p : ShardKey × Item) : Routed := ⟨p.2.entry, p.1, p.2.host, W.idOf p.2.entry⟩

theorem shardOf_eq (e : UrlEntry) : F.shardOf W e = (F.route e).map (routed W) := by
  unfold RedisFrontier.shardOf route
  dsimp only
  split
  · rfl
  · split
    · rename_i h
      split
      · rfl
      · rename_i h'
        simp [h] at h'
    · rename_i h
      split
      · rename_i h'
        simp [h] at h'
      · rename_i h'
        rw [h] at h'
        cases h'
        rfl

theorem resolve_eq (es : List UrlEntry) :
    F.resolve W es = (F.routeAll es).map (List.map (routed W)) := by
  induction es with
  | nil => rfl
  | cons e es ih =>
    rw [RedisFrontier.resolve, routeAll, shardOf_eq, ih]
    cases F.route e with
    | error err => rfl
    | ok r =>
      cases F.routeAll es with
      | error err => rfl
      | ok rs => rfl

theorem interp_batchTrips (now : Int) (rs : List (ShardKey × Item)) (ks : List ShardKey)
    (hks : ∀ k ∈ ks, k ∈ rs.map Prod.fst) : ∀ (R : Redis β) (total : SubmitBatchOutcome),
    Prog.interp (serve W B) (F.batchTrips W now rs ks total) R.shards =
      (.ok (F.submitShards W B now (rs.map (routed W)) ks R total).2,
        (F.submitShards W B now (rs.map (routed W)) ks R total).1.shards) := by
  induction ks with
  | nil => intro R total; rfl
  | cons k ks ih =>
    intro R total
    let items := (rs.filter (·.1 = k)).map Prod.snd
    have hne : (items.map fun it => (it, F.maxUrls it.host)) ≠ [] := by
      obtain ⟨p, hp, hpk⟩ := List.mem_map.1 (hks k List.mem_cons_self)
      have hmem : p ∈ rs.filter (·.1 = k) := List.mem_filter.2 ⟨hp, by simpa using hpk⟩
      simp only [items, ne_eq, List.map_eq_nil_iff]
      exact List.ne_nil_of_mem hmem
    have hroute : (rs.map (routed W)).filter (·.shard = k) = (rs.filter (·.1 = k)).map (routed W) := by
      rw [List.filter_map]
      rfl
    have hitems : ((rs.filter (·.1 = k)).map (routed W)).map (F.submitItem W) =
        (items.map fun it => (it, F.maxUrls it.host)).map
          fun p => ⟨W.idOf p.1.entry, p.1.host, W.encode p.1.entry, p.2⟩ := by
      simp only [items, List.map_map]
      rfl
    have hfind : ∀ id, (items.find? fun it => decide (W.idOf it.entry = id)).map Item.entry =
        (((rs.filter (·.1 = k)).map (routed W)).find? (·.urlId = id)).map Routed.entry := by
      intro id
      simp only [items, List.find?_map, Option.map_map]
      rfl
    rw [batchTrips, Prog.interp_bind, interp_submitBatch W B k hne]
    rw [RedisFrontier.submitShards, RedisFrontier.submitShard, hroute, hitems]
    simp only [← hfind]
    let res := Cmd.exec W B (R.shards k)
      (.submitBatch (items.map fun it => (it, F.maxUrls it.host)) now)
    exact ih (fun k hk => hks k (List.mem_cons_of_mem _ hk))
      ⟨Function.update R.shards k res.1, R.rejected ++ res.2.2.map (k, ·)⟩ _

/-- What `submit_batch` returns and leaves, if not how it words an error. -/
theorem interp_submitBatchTrips (order : HashOrder) (now : Int) (es : List UrlEntry) (R : Redis β) :
    (Prog.interp (serve W B) (F.submitBatchTrips W order now es) R.shards).1.toOption =
        (F.submitBatch W B order now es R).1.toOption ∧
      (Prog.interp (serve W B) (F.submitBatchTrips W order now es) R.shards).2 =
        (F.submitBatch W B order now es R).2.shards := by
  unfold submitBatchTrips RedisFrontier.submitBatch
  by_cases hne : es = []
  · rw [if_pos hne, if_pos hne]
    exact ⟨rfl, rfl⟩
  · rw [if_neg hne, if_neg hne, resolve_eq]
    cases hr : F.routeAll es with
    | error err => exact ⟨rfl, rfl⟩
    | ok rs =>
      have hkeys : (rs.map (routed W)).map Routed.shard = rs.map Prod.fst := by
        rw [List.map_map]
        rfl
      have hks : ∀ k ∈ order.iter (rs.map Prod.fst).dedup, k ∈ rs.map Prod.fst := fun k hk =>
        List.mem_dedup.1 ((order.perm _).mem_iff.1 hk)
      simp only [Except.map, hkeys, interp_batchTrips now rs _ hks]
      exact ⟨rfl, trivial⟩

end RedisClient

end Alone

end Crawlrs
