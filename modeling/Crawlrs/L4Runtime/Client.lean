import Crawlrs.L3Frontier.Wake
import Crawlrs.L4Runtime.Frontier

/-!
# The single-URL calls of the client (`crawlrs-frontier/src/frontier.rs`, `promoter.rs`)

`submit`, the `claim` sweep over the owned shards and `tick`, beside `submit_batch`,
`advance_wake` and `ack` of `Frontier`. A sweep starts at the cursor, ends at the first
shard that hands out a URL or fails, and otherwise keeps the soonest hint. `tick`
promotes, then reclaims, shard by shard.

A script call does not fail here; a reply that does not parse is an error.
-/
namespace Crawlrs

variable {β : Type}

/-- `lease_timeout` in milliseconds.
mirrors crates/crawlrs-frontier/src/frontier.rs:88-104 -/
structure RedisClient extends RedisFrontier where
  leaseTimeout : Nat
  tickBatchLimit : Nat

/-- The keyspaces, and the cursor of the client.
mirrors crates/crawlrs-frontier/src/frontier.rs:102-103 -/
structure Connected (β : Type) where
  redis : Redis β
  claimCursor : UInt64 := 0

/-- mirrors crates/crawlrs-core/src/traits/frontier.rs:38-58; the hint in milliseconds -/
inductive ClaimOutcome
  | claimed (u : UrlId) (entry : UrlEntry) (attemptId : String)
  | emptyHint (soonestMs : Nat)
  | empty
deriving DecidableEq, Repr

namespace RedisClient

variable (F : RedisClient) (W : Wire) (B : Sketch UrlId β)

/-- `lease_timeout.as_millis() as i64`. -/
def leaseMs : Int := asI64 (UInt64.ofNat F.leaseTimeout)

def setShard (R : Redis β) (k : ShardKey) (s : Shard β) : Redis β :=
  { R with shards := Function.update R.shards k s }

/-- mirrors crates/crawlrs-frontier/src/frontier.rs:262-277 -/
def submit (now : Int) (e : UrlEntry) (R : Redis β) : Except Error Shard.SubmitOutcome × Redis β :=
  match F.shardOf W e with
  | .error err => (.error (.frontier err.display), R)
  | .ok r =>
    let res := (R.shards r.shard).submit B r.urlId r.host (W.encode e) now
    (.ok res.2, setShard R r.shard res.1)

/-- The loop over the shards from the cursor on.
mirrors crates/crawlrs-frontier/src/frontier.rs:386-453 -/
def sweep (now : Int) : List ShardKey → Redis β → Option Nat →
    Except HostQueueError ClaimOutcome × Redis β
  | [], R, soonest =>
    (.ok (match soonest with
      | some ms => .emptyHint ms
      | none => .empty), R)
  | k :: ks, R, soonest =>
    let res := (R.shards k).claim now F.leaseMs
    let R := setShard R k res.1
    match parseClaimValue W res.2 with
    | .error err => (.error err, R)
    | .ok (.claimed u entry host) => (.ok (.claimed u entry (encodeAttempt k u host)), R)
    | .ok (.emptyHint ms) =>
      sweep now ks R (some (match soonest with
        | some prev => min prev ms
        | none => ms))
    | .ok .empty => sweep now ks R soonest

/-- mirrors crates/crawlrs-frontier/src/frontier.rs:373-455 -/
def claim (now : Int) (C : Connected β) : Except HostQueueError ClaimOutcome × Connected β :=
  if F.ownedShards = [] then (.ok .empty, C)
  else
    let start := C.claimCursor.toNat % F.ownedShards.length
    let res := F.sweep W now (F.ownedShards.rotate start) C.redis none
    (res.1, ⟨res.2, C.claimCursor + 1⟩)

/-- One shard of a tick: the hosts promoted and the leases reclaimed.
mirrors crates/crawlrs-frontier/src/promoter.rs:34-43 -/
def tickShard (now : Int) (s : Shard β) : Shard β × Nat :=
  let promoted := s.promote now F.tickBatchLimit
  let reclaimed := promoted.1.reclaim now F.tickBatchLimit
  (reclaimed.1, promoted.2 + reclaimed.2)

/-- mirrors crates/crawlrs-frontier/src/promoter.rs:26-46 -/
def tickOnce (now : Int) : List ShardKey → Redis β → Nat → Nat × Redis β
  | [], R, n => (n, R)
  | k :: ks, R, n =>
    let res := F.tickShard now (R.shards k)
    tickOnce now ks (setShard R k res.1) (n + res.2)

/-- mirrors crates/crawlrs-frontier/src/frontier.rs:547-572 -/
def tick (now : Int) (R : Redis β) : Nat × Redis β := F.tickOnce now F.ownedShards R 0

variable {F}

/-- Over distinct shards a tick is a tick of each. -/
theorem tickOnce_eq (now : Int) {ks : List ShardKey} (hnd : ks.Nodup) : ∀ (R : Redis β) (n : Nat),
    (F.tickOnce now ks R n).1 = n + (ks.map fun k => (F.tickShard now (R.shards k)).2).sum ∧
      ∀ k, (F.tickOnce now ks R n).2.shards k =
        if k ∈ ks then (F.tickShard now (R.shards k)).1 else R.shards k := by
  induction ks with
  | nil => intro R n; simp [tickOnce]
  | cons j ks ih =>
    intro R n
    obtain ⟨hj, hnd⟩ := List.nodup_cons.1 hnd
    obtain ⟨h1, h2⟩ := ih hnd (setShard R j (F.tickShard now (R.shards j)).1)
      (n + (F.tickShard now (R.shards j)).2)
    have hother : ∀ k ∈ ks, (setShard R j (F.tickShard now (R.shards j)).1).shards k = R.shards k := by
      intro k hk
      have hne : k ≠ j := fun he => hj (he ▸ hk)
      simp [setShard, hne]
    constructor
    · rw [tickOnce, h1, List.map_cons, List.sum_cons, Nat.add_assoc]
      congr 2
      refine congrArg List.sum (List.map_congr_left fun k hk => ?_)
      rw [hother k hk]
    · intro k
      rw [tickOnce, h2]
      by_cases hk : k ∈ ks
      · simp only [hk, if_true, List.mem_cons, or_true, hother k hk]
      · by_cases hkj : k = j
        · subst hkj
          simp [hk, setShard]
        · simp [hk, hkj, setShard]

end RedisClient

end Crawlrs
