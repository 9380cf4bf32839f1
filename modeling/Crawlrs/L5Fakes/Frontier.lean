import Crawlrs.L1Data.Routing
import Crawlrs.L1Data.Tokens
import Crawlrs.L4Runtime.Frontier
import Mathlib.Data.Finset.Insert
import Mathlib.Data.List.AList

/-!
# The in-memory frontier (`crawlrs-fakes/src/frontier.rs`)

The test double of the Redis frontier, a "protocol model" of the behaviour the
runtime depends on: every shard has the same queues, filter, counters, wake and
ready bookkeeping and leases, in hash maps. Each call runs under one lock.

A hash map iterates in any order; `IterOrder` is one. Only maps that are iterated
are kept as finite maps (`AList`), the others as functions. Times are `u64`
milliseconds, counters far below 2^64; both are `Nat` here.

`encodeAttempt` differs from the Redis frontier's: the attempt id has no host.
-/
namespace Crawlrs

namespace Fakes

/-- mirrors crates/crawlrs-fakes/src/frontier.rs:120-124 -/
structure InflightSlot where
  host : Host
  leaseExpiryMs : Nat
deriving DecidableEq, Repr

/-- mirrors crates/crawlrs-fakes/src/frontier.rs:96-118 -/
structure ShardState where
  hostQueue : Host → Option (List UrlId) := fun _ => none
  urls : UrlId → Option UrlEntry := fun _ => none
  seen : Finset UrlId := ∅
  hostCount : Host → Nat := fun _ => 0
  wake : AList fun _ : Host => Nat := ∅
  ready : List Host := []
  inflight : AList fun _ : UrlId => InflightSlot := ∅

/-- The shards are the owned ones; `claim_cursor` is a `usize` that wraps.
mirrors crates/crawlrs-fakes/src/frontier.rs:89-94 -/
structure FrontierState where
  shards : ShardKey → ShardState := fun _ => {}
  claimCursor : UInt64 := 0

/-- How the hash maps of a shard iterate. -/
structure IterOrder where
  hosts : List Host → List Host
  leases : List UrlId → List UrlId
  perm_hosts : ∀ hs, (hosts hs).Perm hs
  perm_leases : ∀ us, (leases us).Perm us

theorem IterOrder.perm_id {α : Type} (l : List α) : (id l).Perm l := .refl _

/-- Maps that iterate as they were filled. -/
def IterOrder.asIs : IterOrder := ⟨id, id, IterOrder.perm_id, IterOrder.perm_id⟩

/-- mirrors crates/crawlrs-fakes/src/frontier.rs:61-78 -/
structure InMemoryFrontier where
  policy : HostHashShardPolicy
  ownedShards : List ShardKey
  crawlScope : CrawlScope
  leaseTimeoutMs : Nat

/-- The wall clock of `u64` milliseconds ends here. -/
def maxMs : Nat := 2 ^ 64 - 1

/-! ## Attempt ids -/

/-- mirrors crates/crawlrs-fakes/src/frontier.rs:193-195 -/
def encodeAttempt (shard : ShardKey) (u : UrlId) : String :=
  toString shard.toNat ++ ("|" ++ u.toHex)

/-- mirrors crates/crawlrs-fakes/src/frontier.rs:197-208 -/
def decodeAttempt (raw : String) : Except Error (ShardKey × UrlId) :=
  match splitOnce '|' raw.toList with
  | none => .error (.frontier ("malformed AttemptId: " ++ raw))
  | some (shardStr, hex) =>
    match parseUnsigned 32 shardStr with
    | none => .error (.frontier ("malformed shard in AttemptId: " ++ raw))
    | some n =>
      match UrlId.fromHex (String.ofList hex) with
      | none => .error (.frontier ("malformed url_id in AttemptId: " ++ raw))
      | some u => .ok (UInt32.ofNat n, u)

theorem decodeAttempt_encodeAttempt (shard : ShardKey) (u : UrlId) :
    decodeAttempt (encodeAttempt shard u) = .ok (shard, u) := by
  have hpre : '|' ∉ Nat.toDigits 10 shard.toNat := fun h =>
    absurd (isDigit_toDigits h) (by decide)
  have hs : (encodeAttempt shard u).toList =
      Nat.toDigits 10 shard.toNat ++ '|' :: u.toHex.toList := by
    simp [encodeAttempt, Nat.toList_repr]
  have h1 := splitOnce_append hpre u.toHex.toList
  rw [← hs] at h1
  simp [decodeAttempt, h1, parseUnsigned_toDigits (w := 32) shard.toNat_lt]

/-! ## One shard -/

namespace ShardState

/-- `wake.entry(host).or_insert(now_ms)`. -/
def wakeOrInsert (s : ShardState) (h : Host) (now : Nat) : ShardState :=
  if h ∈ s.wake then s else { s with wake := s.wake.insert h now }

/-- `host_queue.entry(host).or_default().push_back(url_id)`. -/
def pushBack (s : ShardState) (h : Host) (u : UrlId) : ShardState :=
  { s with hostQueue := Function.update s.hostQueue h (some ((s.hostQueue h).getD [] ++ [u])) }

/-- What both submits do with a URL that is new. -/
def enqueue (s : ShardState) (e : UrlEntry) (u : UrlId) (h : Host) (now : Nat) : ShardState :=
  ({ s with
    seen := insert u s.seen
    urls := Function.update s.urls u (some e) }.pushBack h u).wakeOrInsert h now

/-- mirrors crates/crawlrs-fakes/src/frontier.rs:231-246 -/
def submit (s : ShardState) (e : UrlEntry) (u : UrlId) (h : Host) (now : Nat) :
    ShardState × Shard.SubmitOutcome :=
  if u ∈ s.seen then (s, .skippedDuplicate) else (s.enqueue e u h now, .queued)

/-- The loop body of `submit_batch` on the shard of the entry.
mirrors crates/crawlrs-fakes/src/frontier.rs:275-298 -/
def submitEntry (cap : Option UInt64) (now : Nat) (s : ShardState) (e : UrlEntry) (u : UrlId)
    (h : Host) : ShardState × Shard.Verdict :=
  if cap.any (fun c => c.toNat ≤ s.hostCount h) then (s, .rejected)
  else if u ∈ s.seen then (s, .duplicate)
  else
    let s := if cap.isSome then
      { s with hostCount := Function.update s.hostCount h (s.hostCount h + 1) } else s
    (s.enqueue e u h now, .queued)

/-- The lease and the claim-time safety wake-time. -/
def lease (s : ShardState) (u : UrlId) (h : Host) (expiry : Nat) : ShardState :=
  { s with
    inflight := s.inflight.insert u ⟨h, expiry⟩
    wake := s.wake.insert h expiry }

/-- What `pop_one_ready` finds; a queued id without its entry panics. -/
inductive Popped
  | found (u : UrlId) (e : UrlEntry) (h : Host)
  | missing (u : UrlId)
  | nothing
deriving DecidableEq, Repr

/-- The loop over what is left of `ready`.
mirrors crates/crawlrs-fakes/src/frontier.rs:451-493 -/
def popLoop (expiry : Nat) : List Host → ShardState → ShardState × Popped
  | [], s => ({ s with ready := [] }, .nothing)
  | h :: rest, s =>
    match s.hostQueue h with
    | none | some [] => popLoop expiry rest { s with ready := rest }
    | some (u :: q) =>
      let s : ShardState := { s with
        ready := rest
        hostQueue := Function.update s.hostQueue h (some q) }
      match s.urls u with
      | none => (s, .missing u)
      | some e => (s.lease u h expiry, .found u e h)

/-- `now_ms.saturating_add(lease_timeout_ms)` is the expiry. -/
def popOneReady (s : ShardState) (now leaseMs : Nat) : ShardState × Popped :=
  popLoop (min (now + leaseMs) maxMs) s.ready s

/-- `wake.values().min()`. -/
def soonest (s : ShardState) : Option Nat := (s.wake.entries.map fun p => p.2).min?

/-- mirrors crates/crawlrs-fakes/src/frontier.rs:372-378 -/
def advanceWake (s : ShardState) (h : Host) (untilMs : Nat) : ShardState :=
  if (s.hostQueue h).isSome ∨ h ∈ s.wake then
    { s with wake := s.wake.insert h untilMs, ready := s.ready.filter (· ≠ h) }
  else s

/-- mirrors crates/crawlrs-fakes/src/frontier.rs:389-390 -/
def ack (s : ShardState) (u : UrlId) : ShardState :=
  { s with inflight := s.inflight.erase u, urls := Function.update s.urls u none }

/-- The hosts a tick moves: due, and not in `ready`. -/
def due (s : ShardState) (now : Nat) : List Host :=
  (s.wake.entries.filter fun p => p.2 ≤ now ∧ p.1 ∉ s.ready).map Sigma.fst

def promoteOne (s : ShardState) (h : Host) : ShardState :=
  { s with wake := s.wake.erase h, ready := s.ready ++ [h] }

/-- The leases a tick reclaims. -/
def expired (s : ShardState) (now : Nat) : List UrlId :=
  (s.inflight.entries.filter fun p => p.2.leaseExpiryMs ≤ now).map Sigma.fst

def reclaimOne (now : Nat) (s : ShardState) (u : UrlId) : ShardState :=
  match s.inflight.lookup u with
  | none => s
  | some slot =>
    ({ s with inflight := s.inflight.erase u }.pushBack slot.host u).wakeOrInsert slot.host now

/-- mirrors crates/crawlrs-fakes/src/frontier.rs:401-438 -/
def tick (order : IterOrder) (now : Nat) (s : ShardState) : ShardState × Nat :=
  let promoted := order.hosts (s.due now)
  let s := promoted.foldl promoteOne s
  let expired := order.leases (s.expired now)
  (expired.foldl (reclaimOne now) s, promoted.length + expired.length)

end ShardState

/-! ## The calls -/

namespace InMemoryFrontier

variable (M : InMemoryFrontier) (W : Wire)

/-- The shard and host of an entry, or why it is turned down: `assert_owned`, then the host.
mirrors crates/crawlrs-fakes/src/frontier.rs:174-182, 260-267 -/
def check (e : UrlEntry) : Except Error (ShardKey × Host) :=
  let shard := M.policy.shardKey e.url
  if shard ∉ M.ownedShards then
    .error (.frontier (RedisFrontierError.shardNotOwned shard M.ownedShards).display)
  else
    match e.url.host with
    | none => .error (.frontier ("url has no host: " ++ e.url.asStr))
    | some host => .ok (shard, host)

def setShard (st : FrontierState) (k : ShardKey) (s : ShardState) : FrontierState :=
  { st with shards := Function.update st.shards k s }

/-- mirrors crates/crawlrs-fakes/src/frontier.rs:212-246 -/
def submit (now : Nat) (e : UrlEntry) (st : FrontierState) :
    Except Error Shard.SubmitOutcome × FrontierState :=
  match M.check e with
  | .error err => (.error err, st)
  | .ok (shard, host) =>
    let r := (st.shards shard).submit e (W.idOf e) host now
    (.ok r.2, setShard st shard r.1)

/-- The loop of `submit_batch`: an entry that is turned down ends it there.
mirrors crates/crawlrs-fakes/src/frontier.rs:248-301 -/
def submitLoop (now : Nat) : List UrlEntry → FrontierState → SubmitBatchOutcome →
    Except Error SubmitBatchOutcome × FrontierState
  | [], st, outcome => (.ok outcome, st)
  | e :: es, st, outcome =>
    match M.check e with
    | .error err => (.error err, st)
    | .ok (shard, host) =>
      let r := (st.shards shard).submitEntry (M.crawlScope.maxUrlsFor host) now e (W.idOf e) host
      let st := setShard st shard r.1
      match r.2 with
      | .rejected => submitLoop now es st { outcome with rejectedUrls := outcome.rejectedUrls ++ [e] }
      | .duplicate => submitLoop now es st outcome
      | .queued => submitLoop now es st { outcome with queued := outcome.queued + 1 }

def submitBatch (now : Nat) (es : List UrlEntry) (st : FrontierState) :
    Except Error SubmitBatchOutcome × FrontierState := M.submitLoop W now es st {}

/-- mirrors crates/crawlrs-core/src/traits/frontier.rs:38-58; `emptyHint` without the instant -/
inductive ClaimOutcome
  | claimed (u : UrlId) (e : UrlEntry) (attemptId : String)
  | emptyHint
  | empty
deriving DecidableEq, Repr

/-- The sweep over the shards from the cursor on; `none` is a panic.
mirrors crates/crawlrs-fakes/src/frontier.rs:318-356 -/
def sweep (now : Nat) : List ShardKey → FrontierState → Option Nat →
    Option ClaimOutcome × FrontierState
  | [], st, soonest =>
    (some (if soonest.any (now < ·) then .emptyHint else .empty), st)
  | k :: ks, st, soonest =>
    let r := (st.shards k).popOneReady now M.leaseTimeoutMs
    let st := setShard st k r.1
    match r.2 with
    | .found u e _ => (some (.claimed u e (encodeAttempt k u)), st)
    | .missing _ => (none, st)
    | .nothing =>
      sweep now ks st (match r.1.soonest, soonest with
        | some m, some s => some (if m < s then m else s)
        | some m, none => some m
        | none, s => s)

/-- `owned_shards[(start + offset) % n]` for every offset. -/
def rotation (owned : List ShardKey) (cursor : UInt64) : List ShardKey :=
  owned.rotate (cursor.toNat % owned.length)

/-- mirrors crates/crawlrs-fakes/src/frontier.rs:303-353 -/
def claim (now : Nat) (st : FrontierState) : Option ClaimOutcome × FrontierState :=
  if M.ownedShards = [] then (some .empty, st)
  else M.sweep now (rotation M.ownedShards st.claimCursor)
    { st with claimCursor := st.claimCursor + 1 } none

/-- Every shard that knows the host.
mirrors crates/crawlrs-fakes/src/frontier.rs:364-381 -/
def advanceWake (host : Host) (untilMs : UInt64) (st : FrontierState) : FrontierState :=
  { st with shards := fun k =>
      if k ∈ M.ownedShards then (st.shards k).advanceWake host untilMs.toNat else st.shards k }

/-- mirrors crates/crawlrs-fakes/src/frontier.rs:383-392 -/
def ack (attempt : String) (st : FrontierState) : Except Error Unit × FrontierState :=
  match decodeAttempt attempt with
  | .error err => (.error err, st)
  | .ok (shard, u) =>
    if shard ∈ M.ownedShards then (.ok (), setShard st shard ((st.shards shard).ack u))
    else (.ok (), st)

/-- One shard after the other; they share nothing.
mirrors crates/crawlrs-fakes/src/frontier.rs:394-441 -/
def tick (order : IterOrder) (now : Nat) (st : FrontierState) : Nat × FrontierState :=
  ((M.ownedShards.dedup.map fun k => ((st.shards k).tick order now).2).sum,
    { st with shards := fun k =>
        if k ∈ M.ownedShards then ((st.shards k).tick order now).1 else st.shards k })

end InMemoryFrontier

/-- The earlier of two times, where there are any. -/
def sooner : Option Nat → Option Nat → Option Nat
  | some m, some s => some (if m < s then m else s)
  | some m, none => some m
  | none, s => s

/-- The sweep past a shard with nothing to claim. -/
theorem sweep_nothing {M : InMemoryFrontier} {now : Nat} {k : ShardKey} {st : FrontierState}
    {m : ShardState} (h : (st.shards k).popOneReady now M.leaseTimeoutMs = (m, .nothing))
    (ks : List ShardKey) (soonest : Option Nat) :
    M.sweep now (k :: ks) st soonest =
      M.sweep now ks (InMemoryFrontier.setShard st k m) (sooner m.soonest soonest) := by
  conv_lhs => unfold InMemoryFrontier.sweep
  simp only [h]
  cases m.soonest with
  | none => rfl
  | some t => cases soonest <;> rfl

end Fakes

end Crawlrs
