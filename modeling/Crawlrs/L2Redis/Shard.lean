import Crawlrs.Core.Double
import Crawlrs.Core.Sketch
import Crawlrs.Core.ZSet
import Crawlrs.L1Data.Tokens
import Mathlib.Logic.Function.Basic

/-!
# One shard of the Redis frontier (`crawlrs-frontier/src/scripts`)

The keyspace of one shard and the six Lua scripts over it, each a function on
the whole keyspace: the server runs a script atomically. `ack` is two commands,
`ackZrem` and `ackHdel`.

Every number a script handles is a Lua number and every score a Redis score,
both doubles: `tonumber` and a score argument round (`f64`), and `now_ms +
lease_timeout_ms` is a double sum. A `LIMIT` is a batch size, far below 2^53,
and kept as it is.

`parseClaimValue` is the client side of `claim.lua`'s reply.
-/
namespace Crawlrs

/-- The keys of one shard. An absent list or hash is empty and an absent counter 0.
mirrors crates/crawlrs-frontier/src/keys.rs -/
structure Shard (β : Type) where
  seen : β
  urls : UrlId → Option Bytes
  hostQueue : Host → List UrlId
  hostCount : Host → Nat
  wake : ZSet Host
  ready : List Host
  inflight : ZSet Lease

namespace Shard

variable {β : Type}

/-- The keys of a new run; the `seen` filter outlives runs. -/
def fresh (seen : β) : Shard β where
  seen := seen
  urls := fun _ => none
  hostQueue := fun _ => []
  hostCount := fun _ => 0
  wake := .empty
  ready := []
  inflight := .empty

/-! ## Submitting -/

/-- mirrors crates/crawlrs-core/src/traits/frontier.rs:71-78 -/
inductive SubmitOutcome
  | queued
  | skippedDuplicate
deriving DecidableEq, Repr

/-- `HSET urls`, `RPUSH host_queue`, `ZADD wake NX`: the tail both submits share. -/
def enqueue (s : Shard β) (u : UrlId) (h : Host) (payload : Bytes) (now : Int) : Shard β :=
  { s with
    urls := Function.update s.urls u (some payload)
    hostQueue := Function.update s.hostQueue h (s.hostQueue h ++ [u])
    wake := s.wake.zaddNX h (f64 now) }

/-- mirrors crates/crawlrs-frontier/src/scripts/submit.lua:29-50 -/
def submit (B : Sketch UrlId β) (s : Shard β) (u : UrlId) (h : Host) (payload : Bytes)
    (now : Int) : Shard β × SubmitOutcome :=
  match B.bfAdd s.seen u with
  | (seen, false) => ({ s with seen }, .skippedDuplicate)
  | (seen, true) => (({ s with seen } : Shard β).enqueue u h payload now, .queued)

/-- One `(url_id, host, payload, max_urls_or_neg1)` of a batch.
mirrors crates/crawlrs-frontier/src/host_queue.rs:54-64 -/
structure SubmitItem where
  urlId : UrlId
  host : Host
  payload : Bytes
  maxUrls : Int
deriving DecidableEq, Repr

/-- What the loop body of `submit_batch.lua` does with one entry. -/
inductive Verdict
  | queued
  | duplicate
  | rejected
deriving DecidableEq, Repr

/-- `INCR host_count`. -/
def incr (s : Shard β) (h : Host) : Shard β :=
  { s with hostCount := Function.update s.hostCount h (s.hostCount h + 1) }

/-- The loop body.
mirrors crates/crawlrs-frontier/src/scripts/submit_batch.lua:42-84 -/
def submitItem (B : Sketch UrlId β) (now : Int) (s : Shard β) (it : SubmitItem) :
    Shard β × Verdict :=
  let cap := f64 it.maxUrls
  if 0 ≤ cap ∧ cap ≤ f64 (s.hostCount it.host) then (s, .rejected)
  else
    match B.bfAdd s.seen it.urlId with
    | (seen, false) => ({ s with seen }, .duplicate)
    | (seen, true) =>
      let s : Shard β := { s with seen }
      let s := if 0 ≤ cap then s.incr it.host else s
      (s.enqueue it.urlId it.host it.payload now, .queued)

/-- `{queued, rejected_ids}` grows along the loop.
mirrors crates/crawlrs-frontier/src/scripts/submit_batch.lua:36-87 -/
def submitBatch (B : Sketch UrlId β) (now : Int) :
    List SubmitItem → Shard β → Nat × List UrlId → Shard β × Nat × List UrlId
  | [], s, acc => (s, acc)
  | it :: its, s, (queued, rejected) =>
    match submitItem B now s it with
    | (s', .queued) => submitBatch B now its s' (queued + 1, rejected)
    | (s', .duplicate) => submitBatch B now its s' (queued, rejected)
    | (s', .rejected) => submitBatch B now its s' (queued, rejected ++ [it.urlId])

/-! ## Claiming -/

/-- The reply of `claim.lua`; `none` is the nil an absent hash field reads as. -/
inductive ClaimReply
  | claimed (u : UrlId) (h : Host) (payload : Option Bytes)
  | emptyHint (soonest : Int)
  | empty
deriving DecidableEq, Repr

/-- The lease on `u` and the safety wake-time of `h`, both at `expiry`. -/
def lease (s : Shard β) (u : UrlId) (h : Host) (expiry : Int) : Shard β :=
  { s with
    wake := s.wake.zadd h expiry
    inflight := s.inflight.zadd ⟨u, h⟩ expiry }

/-- `now_ms + lease_timeout_ms`. -/
def expiryOf (now leaseMs : Int) : Int := f64 (f64 now + f64 leaseMs)

/-- The loop over what is left of `ready`.
mirrors crates/crawlrs-frontier/src/scripts/claim.lua:31-58 -/
def claimLoop (now leaseMs : Int) : List Host → Shard β → Shard β × ClaimReply
  | [], s =>
    let s := { s with ready := [] }
    match s.wake.first? with
    | some (_, t) => (s, .emptyHint t)
    | none => (s, .empty)
  | h :: rest, s =>
    match s.hostQueue h with
    | [] => claimLoop now leaseMs rest { s with ready := rest }
    | u :: q =>
      let s : Shard β := { s with ready := rest, hostQueue := Function.update s.hostQueue h q }
      (s.lease u h (expiryOf now leaseMs), .claimed u h (s.urls u))

/-- mirrors crates/crawlrs-frontier/src/scripts/claim.lua:27-58 -/
def claim (s : Shard β) (now leaseMs : Int) : Shard β × ClaimReply :=
  claimLoop now leaseMs s.ready s

/-! ## Scheduling -/

/-- `ZREM wake`, `RPUSH ready`. -/
def promoteOne (s : Shard β) (h : Host) : Shard β :=
  { s with wake := s.wake.zrem h, ready := s.ready ++ [h] }

/-- mirrors crates/crawlrs-frontier/src/scripts/promote.lua:17-27 -/
def promote (s : Shard β) (now : Int) (limit : Nat) : Shard β × Nat :=
  let hosts := s.wake.zrangebyscore 0 (f64 now) limit
  (hosts.foldl promoteOne s, hosts.length)

/-- `ZREM inflight`, `RPUSH host_queue`, `ZADD wake NX` for one expired member.
mirrors crates/crawlrs-frontier/src/scripts/reclaim.lua:45-53 -/
def reclaimOne (now : Int) (s : Shard β) (l : Lease) : Shard β :=
  match Lease.splitMember l.member with
  | none => s
  | some m =>
    { s with
      inflight := s.inflight.zrem l
      hostQueue := Function.update s.hostQueue m.host (s.hostQueue m.host ++ [m.urlId])
      wake := s.wake.zaddNX m.host (f64 now) }

/-- mirrors crates/crawlrs-frontier/src/scripts/reclaim.lua:38-55 -/
def reclaim (s : Shard β) (now : Int) (limit : Nat) : Shard β × Nat :=
  let expired := s.inflight.zrangebyscore 0 (f64 now) limit
  (expired.foldl (reclaimOne now) s, expired.countP fun l => (Lease.splitMember l.member).isSome)

/-- mirrors crates/crawlrs-frontier/src/scripts/advance_wake.lua:22-24 -/
def advanceWake (s : Shard β) (h : Host) (untilMs : Int) : Shard β :=
  { s with
    wake := s.wake.zadd h (f64 untilMs)
    ready := s.ready.filter (· ≠ h) }

/-! ## Acknowledging: two commands

mirrors crates/crawlrs-frontier/src/host_queue.rs:299-318 -/

def ackZrem (s : Shard β) (l : Lease) : Shard β := { s with inflight := s.inflight.zrem l }

def ackHdel (s : Shard β) (u : UrlId) : Shard β := { s with urls := Function.update s.urls u none }

end Shard

/-! ## The client side of a claim -/

/-- mirrors crates/crawlrs-frontier/src/host_queue.rs:70-80 -/
inductive ClaimRaw
  | claimed (u : UrlId) (entry : UrlEntry) (h : Host)
  | emptyHint (soonestMs : Nat)
  | empty
deriving DecidableEq, Repr

/-- The variants `parse_claim_value` can raise on a reply of `claim.lua`.
mirrors crates/crawlrs-frontier/src/host_queue.rs:83-98 -/
inductive HostQueueError
  | parse
  | badUrlId (hex : String)
  | codec
deriving DecidableEq, Repr

/-- A nil payload reads as an empty buffer.
mirrors crates/crawlrs-frontier/src/host_queue.rs:343-384 -/
def parseClaimValue (W : Wire) : Shard.ClaimReply → Except HostQueueError ClaimRaw
  | .empty => .ok .empty
  | .emptyHint score =>
    match parseUnsigned 64 (W.scoreText score).toList with
    | some ms => .ok (.emptyHint ms)
    | none => .error .parse
  | .claimed u h payload =>
    match UrlId.fromHex u.toHex with
    | none => .error (.badUrlId u.toHex)
    | some id =>
      match W.decode (payload.getD []) with
      | none => .error .codec
      | some entry => .ok (.claimed id entry h)

theorem parse_claimed (W : Wire) (u : UrlId) (h : Host) (e : UrlEntry) :
    parseClaimValue W (.claimed u h (some (W.encode e))) = .ok (.claimed u e h) := by
  simp [parseClaimValue, W.decode_encode]

/-- A plain score reads as it is. -/
theorem parseUnsigned_scoreText (W : Wire) {n : Nat} (hn : n < 2 ^ 52) :
    parseUnsigned 64 (W.scoreText n).toList = some n := by
  have hp : parseUnsigned 64 (Nat.toDigits 10 n) = some n := parseUnsigned_toDigits (by omega)
  simp [W.scoreText_plain n hn, Nat.toList_repr, hp]

/-- A URL reaches the caller only with a payload that decodes. -/
theorem parse_claimed_inv {W : Wire} {r : Shard.ClaimReply} {u : UrlId} {e : UrlEntry} {h : Host}
    (hcl : parseClaimValue W r = .ok (.claimed u e h)) :
    ∃ bs, r = .claimed u h (some bs) ∧ W.decode bs = some e := by
  cases r with
  | empty => cases hcl
  | emptyHint t =>
    simp only [parseClaimValue] at hcl
    split at hcl <;> cases hcl
  | claimed v x payload =>
    simp only [parseClaimValue, UrlId.fromHex_toHex] at hcl
    split at hcl
    · cases hcl
    · rename_i entry hdec
      cases hcl
      cases payload with
      | none => simp [W.decode_nil] at hdec
      | some bs => exact ⟨bs, rfl, hdec⟩

end Crawlrs
