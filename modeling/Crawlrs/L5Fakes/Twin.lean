import Crawlrs.L4Runtime.Sequential
import Crawlrs.L5Fakes.Mirror
import Crawlrs.L5Fakes.Rollback
import Mathlib.Data.List.Rotate

/-!
# The double beside the Redis frontier

"Tests written against `RedisFrontier` would also pass against `InMemoryFrontier`": both
are given the same calls at the same readings of the clock and their replies compared.
An attempt id and the instant of a hint are the frontier's own and not compared; an ack
names the claim it is for.

They do differ. The double has no hint where a host is due, does not promote a host that
is ready already, does not schedule a host it does not know, and reclaims in the order of
a hash map; the client of Redis reports a rejected URL by the first entry with its id, and
shard by shard; and times and quotas are doubles in Redis. `Aligned` leaves these out.

* `Twins.step`: an aligned call has the same reply and keeps the shards alike.
* `same_replies`: the replies of every run of aligned calls.
-/
namespace Crawlrs

namespace Fakes

/-! ## Calls and replies -/

/-- A call, with the orders in which the hash maps it goes through iterate. `ack d` is of the `d`th
claim that returned a URL. -/
inductive FrontierCall
  | submit (e : UrlEntry) (now : Nat)
  | submitBatch (es : List UrlEntry) (order : HashOrder) (now : Nat)
  | claim (now : Nat)
  | advanceWake (host : Host) (untilMs : UInt64)
  | ack (d : Nat)
  | tick (order : IterOrder) (now : Nat)

inductive Reply
  | submit (r : Except Error Shard.SubmitOutcome)
  | submitBatch (r : Except Error SubmitBatchOutcome)
  | claimed (u : UrlId) (e : UrlEntry)
  | emptyHint
  | empty
  | claimError (e : HostQueueError)
  | panicked
  | done (r : Except Error Unit)
  | affected (n : Nat)
deriving DecidableEq

/-- A frontier, and the attempt ids its claims have returned. -/
structure Driven (σ : Type) where
  frontier : σ
  attempts : List String := []

end Fakes

open Fakes (FrontierCall Reply Driven)

namespace RedisClient

def claimReply : Except HostQueueError ClaimOutcome → Reply
  | .ok (.claimed u e _) => .claimed u e
  | .ok (.emptyHint _) => .emptyHint
  | .ok .empty => .empty
  | .error e => .claimError e

def attemptOf : Except HostQueueError ClaimOutcome → List String
  | .ok (.claimed _ _ a) => [a]
  | _ => []

/-- The calls, with an exact filter. -/
def exec (F : RedisClient) (W : Wire) (s : Driven (Connected (List UrlId))) :
    FrontierCall → Reply × Driven (Connected (List UrlId))
  | .submit e now =>
    let res := F.submit W .exact now e s.frontier.redis
    (.submit res.1, { s with frontier := { s.frontier with redis := res.2 } })
  | .submitBatch es order now =>
    let res := F.submitBatch W .exact order now es s.frontier.redis
    (.submitBatch res.1, { s with frontier := { s.frontier with redis := res.2 } })
  | .claim now =>
    let res := F.claim W now s.frontier
    (claimReply res.1, ⟨res.2, s.attempts ++ attemptOf res.1⟩)
  | .advanceWake host untilMs =>
    let res := F.advanceWake host untilMs s.frontier.redis
    (.done res.1, { s with frontier := { s.frontier with redis := res.2 } })
  | .ack d =>
    match s.attempts[d]? with
    | none => (.done (.ok ()), s)
    | some a =>
      let res := F.ack a s.frontier.redis
      (.done res.1, { s with frontier := { s.frontier with redis := res.2 } })
  | .tick _ now =>
    let res := F.tick now s.frontier.redis
    (.affected res.1, { s with frontier := { s.frontier with redis := res.2 } })

end RedisClient

namespace Fakes

namespace InMemoryFrontier

def claimReply : Option ClaimOutcome → Reply
  | some (.claimed u e _) => .claimed u e
  | some .emptyHint => .emptyHint
  | some .empty => .empty
  | none => .panicked

def attemptOf : Option ClaimOutcome → List String
  | some (.claimed _ _ a) => [a]
  | _ => []

def exec (M : InMemoryFrontier) (W : Wire) (s : Driven FrontierState) :
    FrontierCall → Reply × Driven FrontierState
  | .submit e now =>
    let res := M.submit W now e s.frontier
    (.submit res.1, { s with frontier := res.2 })
  | .submitBatch es _ now =>
    let res := M.submitBatch W now es s.frontier
    (.submitBatch res.1, { s with frontier := res.2 })
  | .claim now =>
    let res := M.claim now s.frontier
    (claimReply res.1, ⟨res.2, s.attempts ++ attemptOf res.1⟩)
  | .advanceWake host untilMs =>
    (.done (.ok ()), { s with frontier := M.advanceWake host untilMs s.frontier })
  | .ack d =>
    match s.attempts[d]? with
    | none => (.done (.ok ()), s)
    | some a =>
      let res := M.ack a s.frontier
      (.done res.1, { s with frontier := res.2 })
  | .tick order now =>
    let res := M.tick order now s.frontier
    (.affected res.1, { s with frontier := res.2 })

end InMemoryFrontier

/-- The double of a client: the same shards, scope and lease timeout. -/
def doubleOf (F : RedisClient) : InMemoryFrontier :=
  ⟨F.policy, F.ownedShards, F.crawlScope, F.leaseTimeout % 2 ^ 64⟩

/-- Both frontiers. -/
structure Pair where
  redis : Driven (Connected (List UrlId)) := ⟨⟨.fresh, 0⟩, []⟩
  memory : Driven FrontierState := ⟨{}, []⟩

namespace Pair

variable (F : RedisClient) (W : Wire)

def step (S : Pair) (c : FrontierCall) : Pair :=
  ⟨(F.exec W S.redis c).2, ((doubleOf F).exec W S.memory c).2⟩

/-- The replies to `c` are the same. -/
def Agree (S : Pair) (c : FrontierCall) : Prop :=
  (F.exec W S.redis c).1 = ((doubleOf F).exec W S.memory c).1

/-- Every run of both, from no URL on. -/
def runs : LTS Pair FrontierCall := LTS.ofFn (· = {}) fun S c => some (S.step F W c)

/-! ## Runs that are compared -/

/-- The client owns every shard, and names each once. -/
structure OwnsAll : Prop where
  nodup : F.ownedShards.Nodup
  all : ∀ k : ShardKey, k.toNat < F.policy.numShards.toNat → k ∈ F.ownedShards

/-- One host for each shard; a tick is never cut short by its limit; and the URL of an ack is not
waiting in its queue again, where only a reclaim of its lease puts it. -/
def Premise (H : ShardKey → Host) (S : Pair) : FrontierCall → Prop
  | .submit e _ => e.url.host = some (H (F.policy.shardKey e.url))
  | .submitBatch es _ _ => ∀ e ∈ es, e.url.host = some (H (F.policy.shardKey e.url))
  | .ack d => ∀ a ∈ S.memory.attempts[d]?, ∀ k u, decodeAttempt a = .ok (k, u) →
      ∀ h, u ∉ ((S.memory.frontier.shards k).hostQueue h).getD []
  | .tick _ _ => ∀ k ∈ F.ownedShards,
      (S.redis.frontier.redis.shards k).wake.zcard ≤ F.tickBatchLimit ∧
        (S.redis.frontier.redis.shards k).inflight.zcard ≤ F.tickBatchLimit
  | _ => True

/-- The host of the entry has a quota. -/
def Capped (e : UrlEntry) : Prop := (F.crawlScope.maxUrlsFor (InMemoryFrontier.hostOf e)).isSome

instance (e : UrlEntry) : Decidable (Capped F e) := inferInstanceAs (Decidable (_ = true))

/-- What a batch under quotas needs: quotas that doubles hold, no second entry for a URL, and the
entries in the order of the script calls of their shards. -/
structure BatchAligned (es : List UrlEntry) (order : HashOrder) : Prop where
  quota : ∀ e ∈ es, ∀ c ∈ F.crawlScope.maxUrlsFor (InMemoryFrontier.hostOf e), c.toNat ≤ 2 ^ 53
  first : ∀ e ∈ es, Capped F e → ∀ e' ∈ es, W.idOf e' = W.idOf e → e' = e
  grouped : (es.filter (Capped F ·)).Pairwise fun a b =>
    (F.callOrder order es).idxOf (F.shardOfEntry a) ≤ (F.callOrder order es).idxOf (F.shardOfEntry b)

/-- Calls on which the two do the same. A claim finds a URL, or no host is due; `advance_wake` is of a
host that has had a URL or has a wake-time; at a tick no host that is due is ready, and the map yields
the expired leases in the server's order. -/
def Aligned (S : Pair) : FrontierCall → Prop
  | .submit _ now => Plain now
  | .submitBatch es order now => Plain now ∧ BatchAligned F W es order
  | .claim now => Plain (now + F.leaseTimeout) ∧
      ((∃ k ∈ F.ownedShards, (S.memory.frontier.shards k).Claimable) ∨
        ∀ k ∈ F.ownedShards, ∀ p ∈ (S.memory.frontier.shards k).wake.entries, now < p.2)
  | .advanceWake host untilMs => Plain untilMs.toNat ∧
      (((S.memory.frontier.shards (F.policy.shardKeyFromHost host)).hostQueue host).isSome ∨
        host ∈ (S.memory.frontier.shards (F.policy.shardKeyFromHost host)).wake)
  | .ack _ => True
  | .tick order now => Plain now ∧ ∀ k ∈ F.ownedShards,
      (∀ h ∈ (S.memory.frontier.shards k).ready,
        ∀ t ∈ (S.memory.frontier.shards k).wake.lookup h, now < t) ∧
      order.leases ((S.memory.frontier.shards k).expired now) =
        ((S.redis.frontier.redis.shards k).inflight.zrangebyscore 0 (f64 now)
          F.tickBatchLimit).map Lease.urlId

/-! ## The invariant -/

/-- The host of a shard, where it has one. -/
def HostOf (H : ShardKey → Host) (k : ShardKey) (h : Host) : Prop :=
  h = H k ∧ F.policy.shardKeyFromHost h = k

theorem oneHost (H : ShardKey → Host) (k : ShardKey) : OneHost (HostOf F H k) := by
  intro x y hx hy
  rw [hx.1, hy.1]

/-- Attempt ids for the same claims. -/
def SameAttempts (H : ShardKey → Host) (as bs : List String) : Prop :=
  ∃ ds : List (ShardKey × UrlId), (∀ d ∈ ds, d.1 ∈ F.ownedShards ∧ HostOf F H d.1 (H d.1)) ∧
    as = ds.map (fun d => Crawlrs.encodeAttempt d.1 d.2 (H d.1)) ∧
    bs = ds.map fun d => encodeAttempt d.1 d.2

structure Twins (H : ShardKey → Host) (S : Pair) : Prop where
  shards : ∀ k, Mirrors W (HostOf F H k) (S.redis.frontier.redis.shards k) (S.memory.frontier.shards k)
  cursor : S.redis.frontier.claimCursor = S.memory.frontier.claimCursor
  attempts : SameAttempts F H S.redis.attempts S.memory.attempts

variable {F W} {H : ShardKey → Host} {S : Pair}

theorem SameAttempts.append {as bs as' bs' : List String} (h : SameAttempts F H as bs)
    (h' : SameAttempts F H as' bs') : SameAttempts F H (as ++ as') (bs ++ bs') := by
  obtain ⟨ds, hd, rfl, rfl⟩ := h
  obtain ⟨ds', hd', rfl, rfl⟩ := h'
  refine ⟨ds ++ ds', fun d hm => ?_, by simp, by simp⟩
  rcases List.mem_append.1 hm with hm | hm
  · exact hd d hm
  · exact hd' d hm

theorem OwnsAll.mem (hF : OwnsAll F) (h : Host) : F.policy.shardKeyFromHost h ∈ F.ownedShards :=
  hF.all _ (F.policy.shardKeyFromHost_lt h)

/-- An entry of the shard's host. -/
theorem hostOf_entry {e : UrlEntry} (he : e.url.host = some (H (F.policy.shardKey e.url))) :
    HostOf F H (F.policy.shardKey e.url) (H (F.policy.shardKey e.url)) := by
  refine ⟨rfl, ?_⟩
  conv_rhs => rw [HostHashShardPolicy.shardKey, he]
  rfl

/-! ## Call by call -/

theorem Twins.submit (hT : Twins F W H S) (hF : OwnsAll F) {e : UrlEntry} {now : Nat}
    (he : e.url.host = some (H (F.policy.shardKey e.url))) (hnow : Plain now) :
    Agree F W S (.submit e now) ∧ Twins F W H (S.step F W (.submit e now)) := by
  have hown : F.policy.shardKey e.url ∈ F.ownedShards := hF.mem _
  have hshard : F.shardOf W e =
      .ok ⟨e, F.policy.shardKey e.url, H (F.policy.shardKey e.url), W.idOf e⟩ := by
    simp [RedisFrontier.shardOf, hown, he]
  have hcheck : (doubleOf F).check e = .ok (F.policy.shardKey e.url, H (F.policy.shardKey e.url)) := by
    simp [InMemoryFrontier.check, doubleOf, hown, he]
  obtain ⟨hreply, hmirror⟩ := (hT.shards (F.policy.shardKey e.url)).submit e (W.idOf e)
    (hostOf_entry he) hnow
  constructor
  · simp only [Agree, RedisClient.exec, RedisClient.submit, hshard, InMemoryFrontier.exec,
      InMemoryFrontier.submit, hcheck, hreply]
  · refine ⟨fun k => ?_, ?_, ?_⟩
    · simp only [step, RedisClient.exec, RedisClient.submit, hshard, RedisClient.setShard,
        InMemoryFrontier.exec, InMemoryFrontier.submit, hcheck, InMemoryFrontier.setShard]
      by_cases hk : k = F.policy.shardKey e.url
      · subst hk
        simpa using hmirror
      · simpa [hk] using hT.shards k
    · simp only [step, RedisClient.exec, RedisClient.submit, hshard, InMemoryFrontier.exec,
        InMemoryFrontier.submit, hcheck, InMemoryFrontier.setShard]
      exact hT.cursor
    · exact hT.attempts

/-- `as i64` of a small time. -/
theorem toInt64_plain {t : UInt64} (ht : Plain t.toNat) : t.toInt64.toInt = t.toNat := by
  unfold Plain at ht
  have h : t.toInt64.toInt = t.toBitVec.toInt := rfl
  rw [h, BitVec.toInt_eq_toNat_of_lt]
  · rfl
  · show 2 * t.toNat < 2 ^ 64
    omega

/-- The shards that know a host. -/
theorem Twins.knows (hT : Twins F W H S) {k : ShardKey} {h : Host}
    (hk : ((S.memory.frontier.shards k).hostQueue h).isSome ∨ h ∈ (S.memory.frontier.shards k).wake) :
    F.policy.shardKeyFromHost h = k := by
  rcases hk with hq | hw
  · exact ((hT.shards k).queue_good h hq).2
  · obtain ⟨t, ht⟩ := Option.isSome_iff_exists.1 (AList.lookup_isSome.2 hw)
    exact ((hT.shards k).wake_good h t ht).2

theorem Twins.advanceWake (hT : Twins F W H S) (hF : OwnsAll F) {host : Host} {untilMs : UInt64}
    (ht : Plain untilMs.toNat)
    (hk : ((S.memory.frontier.shards (F.policy.shardKeyFromHost host)).hostQueue host).isSome ∨
      host ∈ (S.memory.frontier.shards (F.policy.shardKeyFromHost host)).wake) :
    Agree F W S (.advanceWake host untilMs) ∧ Twins F W H (S.step F W (.advanceWake host untilMs)) := by
  have hown := hF.mem host
  have hown' : F.policy.shardKeyFromHost host ∈ (doubleOf F).ownedShards := hown
  constructor
  · simp only [Agree, RedisClient.exec, RedisFrontier.advanceWake, if_pos hown, InMemoryFrontier.exec]
  · refine ⟨fun k => ?_, ?_, hT.attempts⟩
    · simp only [step, RedisClient.exec, RedisFrontier.advanceWake, if_pos hown, RedisFrontier.onShard,
        InMemoryFrontier.exec, InMemoryFrontier.advanceWake]
      by_cases hkh : k = F.policy.shardKeyFromHost host
      · subst hkh
        rw [Function.update_self, if_pos hown', toInt64_plain ht]
        exact (hT.shards _).advanceWake hk ht
      · -- no other shard knows the host
        have hnot : ¬ (((S.memory.frontier.shards k).hostQueue host).isSome ∨
            host ∈ (S.memory.frontier.shards k).wake) := fun hc => hkh (hT.knows hc).symm
        rw [Function.update_of_ne hkh, ShardState.advanceWake, if_neg hnot, ite_self]
        exact hT.shards k
    · simp only [step, RedisClient.exec, RedisFrontier.advanceWake, if_pos hown, RedisFrontier.onShard,
        InMemoryFrontier.exec, InMemoryFrontier.advanceWake]
      exact hT.cursor

theorem Twins.ack (hT : Twins F W H S) {d : Nat} (hp : Premise F H S (.ack d)) :
    Agree F W S (.ack d) ∧ Twins F W H (S.step F W (.ack d)) := by
  obtain ⟨ds, hds, hr, hm⟩ := hT.attempts
  cases hd : ds[d]? with
  | none =>
    have hr' : S.redis.attempts[d]? = none := by simp [hr, hd]
    have hm' : S.memory.attempts[d]? = none := by simp [hm, hd]
    simp only [Agree, step, RedisClient.exec, hr', InMemoryFrontier.exec, hm']
    exact ⟨trivial, hT⟩
  | some p =>
    obtain ⟨k, u⟩ := p
    obtain ⟨hown, hgood⟩ := hds (k, u) (List.mem_of_getElem? hd)
    have hr' : S.redis.attempts[d]? = some (Crawlrs.encodeAttempt k u (H k)) := by simp [hr, hd]
    have hm' : S.memory.attempts[d]? = some (encodeAttempt k u) := by simp [hm, hd]
    have hq := hp _ hm' k u (decodeAttempt_encodeAttempt k u)
    have hown' : k ∈ (doubleOf F).ownedShards := hown
    simp only [Agree, step, RedisClient.exec, hr', InMemoryFrontier.exec, hm', RedisFrontier.ack,
      Crawlrs.decodeAttempt_encodeAttempt, if_pos hown, InMemoryFrontier.ack,
      decodeAttempt_encodeAttempt, if_pos hown', InMemoryFrontier.setShard, RedisFrontier.onShard]
    refine ⟨trivial, fun j => ?_, hT.cursor, hT.attempts⟩
    by_cases hj : j = k
    · subst hj
      simpa using (hT.shards j).ack (oneHost F H j) hgood hq
    · simpa [hj] using hT.shards j

theorem Twins.tick (hT : Twins F W H S) (hF : OwnsAll F) {order : IterOrder} {now : Nat}
    (hp : Premise F H S (.tick order now)) (ha : Aligned F W S (.tick order now)) :
    Agree F W S (.tick order now) ∧ Twins F W H (S.step F W (.tick order now)) := by
  obtain ⟨hnow, ha⟩ := ha
  have hshard : ∀ k ∈ F.ownedShards, (F.tickShard now (S.redis.frontier.redis.shards k)).2 =
      ((S.memory.frontier.shards k).tick order now).2 ∧
        Mirrors W (HostOf F H k) (F.tickShard now (S.redis.frontier.redis.shards k)).1
          ((S.memory.frontier.shards k).tick order now).1 := fun k hk =>
    (hT.shards k).tick (oneHost F H k) hnow (hp k hk).1 (ha k hk).1 (ha k hk).2
  obtain ⟨hcount, hstate⟩ := RedisClient.tickOnce_eq (F := F) now hF.nodup S.redis.frontier.redis 0
  constructor
  · simp only [Agree, RedisClient.exec, RedisClient.tick, hcount, Nat.zero_add, InMemoryFrontier.exec,
      InMemoryFrontier.tick]
    have hdedup : (doubleOf F).ownedShards.dedup = F.ownedShards := hF.nodup.dedup
    rw [hdedup]
    exact congrArg (fun ns => Reply.affected (List.sum ns))
      (List.map_congr_left fun k hk => (hshard k hk).1)
  · refine ⟨fun k => ?_, hT.cursor, hT.attempts⟩
    simp only [step, RedisClient.exec, RedisClient.tick, hstate, InMemoryFrontier.exec,
      InMemoryFrontier.tick]
    by_cases hk : k ∈ F.ownedShards
    · have hk' : k ∈ (doubleOf F).ownedShards := hk
      rw [if_pos hk, if_pos hk']
      exact (hshard k hk).2
    · have hk' : k ∉ (doubleOf F).ownedShards := hk
      rw [if_neg hk, if_neg hk']
      exact hT.shards k

/-! ### A batch -/

/-- Only a quota rejects. -/
theorem capped_of_rejected {now : Nat} {T : ShardKey → ShardState} {es : List UrlEntry} {e : UrlEntry}
    (h : (e, Shard.Verdict.rejected) ∈ Loop.trace ((doubleOf F).submitOne W now) T es) : Capped F e := by
  obtain ⟨pre, -, -, hv⟩ := Loop.mem_trace.1 h
  simp only [InMemoryFrontier.submitOne, Loop.keyed, InMemoryFrontier.entryBody,
    ShardState.submitEntry] at hv
  unfold Capped
  cases hc : F.crawlScope.maxUrlsFor (InMemoryFrontier.hostOf e) with
  | some c => rfl
  | none =>
    have hc' : (doubleOf F).crawlScope.maxUrlsFor (InMemoryFrontier.hostOf e) = none := hc
    simp only [hc', Option.any_none, Bool.false_eq_true, if_false] at hv
    split at hv <;> cases hv

/-- One shard of a batch. -/
theorem Twins.batchShard (hT : Twins F W H S) {es : List UrlEntry} {order : HashOrder} {now : Nat}
    (hp : ∀ e ∈ es, e.url.host = some (H (F.policy.shardKey e.url))) (hnow : Plain now)
    (hb : BatchAligned F W es order) (k : ShardKey) :
    Mirrors W (HostOf F H k)
        (Loop.after (F.luaBody W .exact now) (S.redis.frontier.redis.shards k) (F.onShardEntries k es))
        (Loop.after ((doubleOf F).entryBody W now) (S.memory.frontier.shards k) (F.onShardEntries k es)) ∧
      Loop.trace (F.luaBody W .exact now) (S.redis.frontier.redis.shards k) (F.onShardEntries k es) =
        Loop.trace ((doubleOf F).entryBody W now) (S.memory.frontier.shards k)
          (F.onShardEntries k es) := by
  refine Loop.lockstep (fun r m e he hm => ?_) (hT.shards k)
  obtain ⟨he, hk⟩ := List.mem_filter.1 he
  have hk : F.policy.shardKey e.url = k := of_decide_eq_true hk
  have hhost : HostOf F H k (InMemoryFrontier.hostOf e) := by
    have hgood := hostOf_entry (hp e he)
    rw [hk] at hgood
    rw [InMemoryFrontier.hostOf, hp e he, hk]
    exact hgood
  exact hm.submitEntry F.toRedisFrontier e (W.idOf e) hhost hnow (hb.quota e he)

/-- What the double rejects of a batch, in the order of the entries. -/
def rejects (F : RedisClient) (W : Wire) (now : Nat) (T : ShardKey → ShardState) (es : List UrlEntry) :
    List UrlEntry :=
  ((Loop.trace ((doubleOf F).submitOne W now) T es).filter (·.2 = .rejected)).map Prod.fst

section Rejects

variable {now : Nat} {T : ShardKey → ShardState} {es : List UrlEntry}

theorem capped_of_mem_rejects {e : UrlEntry} (he : e ∈ rejects F W now T es) : Capped F e := by
  obtain ⟨⟨e', v⟩, hq, rfl⟩ := List.mem_map.1 he
  obtain ⟨hq, hv⟩ := List.mem_filter.1 hq
  have hv : v = .rejected := of_decide_eq_true hv
  rw [hv] at hq
  exact capped_of_rejected hq

theorem rejects_sublist : (rejects F W now T es).Sublist es := by
  conv_rhs => rw [← Loop.trace_fst ((doubleOf F).submitOne W now) T es]
  exact List.filter_sublist.map _

/-- The share of one shard. -/
theorem rejects_filter (k : ShardKey) : (rejects F W now T es).filter (F.shardOfEntry · = k) =
    ((Loop.trace ((doubleOf F).entryBody W now) (T k) (F.onShardEntries k es)).filter
      (·.2 = .rejected)).map Prod.fst :=
  Loop.filter_trace_keyed (doubleOf F).shardOfEntry ((doubleOf F).entryBody W now)
    (fun v => decide (v = .rejected)) T es k

/-- Under a quota no other entry has the id of a rejected one. -/
theorem firstWith_of_rejected {order : HashOrder} (hb : BatchAligned F W es order) {e : UrlEntry}
    (he : e ∈ rejects F W now T es) (k : ShardKey) :
    RedisFrontier.firstWith W (F.onShardEntries k es) e = e := by
  unfold RedisFrontier.firstWith
  cases hf : (F.onShardEntries k es).find? fun e' => W.idOf e' = W.idOf e with
  | none => rfl
  | some e' =>
    have hin := (List.mem_filter.1 (List.mem_of_find?_eq_some hf)).1
    have hid : W.idOf e' = W.idOf e := by simpa using List.find?_some hf
    exact hb.first e (rejects_sublist.subset he) (capped_of_mem_rejects he) e' hin hid

/-- Shard by shard in the order of the script calls, they come in the order of the entries. -/
theorem rejects_grouped {order : HashOrder} (hb : BatchAligned F W es order) {ks : List ShardKey}
    (hcall : ks = F.callOrder order es) (hnd : ks.Nodup) (hks : ∀ e ∈ es, F.shardOfEntry e ∈ ks) :
    ks.flatMap (fun k => (rejects F W now T es).filter (F.shardOfEntry · = k)) =
      rejects F W now T es := by
  refine flatMap_classes F.shardOfEntry hnd (fun e he => hks e (rejects_sublist.subset he)) ?_
  have hcap : (rejects F W now T es).Sublist (es.filter (Capped F ·)) := by
    have hself : (rejects F W now T es).filter (Capped F ·) = rejects F W now T es :=
      List.filter_eq_self.2 fun e he => decide_eq_true (capped_of_mem_rejects he)
    rw [← hself]
    exact rejects_sublist.filter _
  have hpair := hb.grouped.sublist hcap
  rw [← hcall] at hpair
  exact hpair

end Rejects

/-- The client of Redis reports of a shard what the double rejects there. -/
theorem Twins.reported (hT : Twins F W H S) {es : List UrlEntry} {order : HashOrder} {now : Nat}
    (hp : ∀ e ∈ es, e.url.host = some (H (F.policy.shardKey e.url))) (hnow : Plain now)
    (hb : BatchAligned F W es order) (k : ShardKey) :
    F.reported W .exact now (S.redis.frontier.redis.shards k) (F.onShardEntries k es) =
      (rejects F W now S.memory.frontier.shards es).filter (F.shardOfEntry · = k) := by
  have hshare : (rejects F W now S.memory.frontier.shards es).filter (F.shardOfEntry · = k) = _ :=
    rejects_filter k
  have hfirst : ∀ e ∈ (rejects F W now S.memory.frontier.shards es).filter (F.shardOfEntry · = k),
      RedisFrontier.firstWith W (F.onShardEntries k es) e = e := fun e he =>
    firstWith_of_rejected hb (List.mem_filter.1 he).1 k
  rw [RedisFrontier.reported, (hT.batchShard hp hnow hb k).2, hshare]
  rw [hshare] at hfirst
  rw [← List.map_id (List.map Prod.fst _), List.map_map]
  refine List.map_congr_left fun q hq => ?_
  exact hfirst q.1 (List.mem_map_of_mem hq)

theorem Twins.submitBatch (hT : Twins F W H S) (hF : OwnsAll F) {es : List UrlEntry}
    {order : HashOrder} {now : Nat} (hp : ∀ e ∈ es, e.url.host = some (H (F.policy.shardKey e.url)))
    (hnow : Plain now) (hb : BatchAligned F W es order) :
    Agree F W S (.submitBatch es order now) ∧
      Twins F W H (S.step F W (.submitBatch es order now)) := by
  have hacc : ∀ e ∈ es, F.Accepts e := fun e he => ⟨hF.mem _, by simp [hp e he]⟩
  have hacc' : ∀ e ∈ es, (doubleOf F).Accepts e := hacc
  have hlock := hT.batchShard hp hnow hb
  obtain ⟨ks, hcall, hnd, hks, hshards, hreply⟩ := RedisFrontier.submitBatch_spec (W := W)
    (B := .exact) order now hacc S.redis.frontier.redis
  have hmem := InMemoryFrontier.submitLoop_eq (W := W) now hacc' S.memory.frontier {}
  constructor
  · simp only [Agree, RedisClient.exec, hreply, InMemoryFrontier.exec, InMemoryFrontier.submitBatch, hmem]
    congr 3
    · rw [Nat.zero_add]
      have hcount := Loop.countP_trace_keyed (doubleOf F).shardOfEntry ((doubleOf F).entryBody W now)
        (fun v => decide (v = .queued)) S.memory.frontier.shards hnd hks
      refine Eq.trans ?_ hcount.symm
      refine congrArg List.sum (List.map_congr_left fun k _ => ?_)
      rw [(hlock k).2]
      rfl
    · rw [List.nil_append]
      refine Eq.trans ?_ (rejects_grouped hb hcall hnd hks)
      exact List.flatMap_congr fun k _ => hT.reported hp hnow hb k
  · refine ⟨fun k => ?_, ?_, hT.attempts⟩
    · simp only [step, RedisClient.exec, hshards, InMemoryFrontier.exec, InMemoryFrontier.submitBatch, hmem]
      have hafter := Loop.after_keyed ((doubleOf F).entryBody W now) (doubleOf F).shardOfEntry
        S.memory.frontier.shards es k
      rw [InMemoryFrontier.submitOne, hafter]
      exact (hlock k).1
    · simp only [step, RedisClient.exec, InMemoryFrontier.exec, InMemoryFrontier.submitBatch, hmem]
      exact hT.cursor

/-! ### The sweep of a claim -/

theorem isSome_soonest (m : ShardState) : m.soonest.isSome ↔ m.wake.entries ≠ [] := by
  simp [ShardState.soonest, Option.isSome_iff_ne_none]

theorem mem_soonest {m : ShardState} {t : Nat} (h : m.soonest = some t) :
    ∃ p ∈ m.wake.entries, p.2 = t := List.mem_map.1 (List.min?_mem h)

theorem isSome_sooner (a b : Option Nat) : (sooner a b).isSome = (a.isSome || b.isSome) := by
  cases a with
  | none => simp [sooner]
  | some m => cases b <;> rfl

theorem lt_sooner {now : Nat} {a b : Option Nat} (ha : ∀ t ∈ a, now < t) (hb : ∀ t ∈ b, now < t) :
    ∀ t ∈ sooner a b, now < t := by
  intro t ht
  cases a with
  | none => exact hb t ht
  | some m =>
    cases b with
    | none => exact ha t ht
    | some s =>
      simp only [sooner, Option.mem_def, Option.some.injEq] at ht
      have h1 := ha m rfl
      have h2 := hb s rfl
      split at ht <;> omega

/-- How two sweeps end. -/
structure Swept (F : RedisClient) (W : Wire) (H : ShardKey → Host) (cursor : UInt64)
    (a : Except HostQueueError ClaimOutcome × Redis (List UrlId))
    (b : Option InMemoryFrontier.ClaimOutcome × FrontierState) : Prop where
  reply : RedisClient.claimReply a.1 = InMemoryFrontier.claimReply b.1
  shards : ∀ k, Mirrors W (HostOf F H k) (a.2.shards k) (b.2.shards k)
  cursor : b.2.claimCursor = cursor
  attempts : SameAttempts F H (RedisClient.attemptOf a.1) (InMemoryFrontier.attemptOf b.1)

theorem parse_hint (W : Wire) {t : Nat} (ht : Plain t) :
    parseClaimValue W (.emptyHint t) = .ok (.emptyHint t) := by
  simp [parseClaimValue, parseUnsigned_scoreText W ht]

theorem leaseMs_plain {now : Nat} (ht : Plain (now + F.leaseTimeout)) :
    F.leaseMs = F.leaseTimeout ∧ (doubleOf F).leaseTimeoutMs = F.leaseTimeout := by
  unfold Plain at ht
  have hn : (UInt64.ofNat F.leaseTimeout).toNat = F.leaseTimeout :=
    UInt64.toNat_ofNat_of_lt (by simp [UInt64.size]; omega)
  refine ⟨?_, Nat.mod_eq_of_lt (by omega)⟩
  rw [RedisClient.leaseMs, asI64_of_lt (by omega), hn]

/-- Something can be claimed, or nothing is due. -/
def Settled (now : Nat) (ks : List ShardKey) (st : FrontierState) (soonest : Option Nat) : Prop :=
  (∃ k ∈ ks, (st.shards k).Claimable) ∨
    ((∀ t ∈ soonest, now < t) ∧ ∀ k ∈ ks, ∀ p ∈ (st.shards k).wake.entries, now < p.2)

theorem mirrors_setShard {R : Redis (List UrlId)} {st : FrontierState}
    (hmir : ∀ k, Mirrors W (HostOf F H k) (R.shards k) (st.shards k)) {k : ShardKey}
    {r : Shard (List UrlId)} {m : ShardState} (hrm : Mirrors W (HostOf F H k) r m) (j : ShardKey) :
    Mirrors W (HostOf F H j) ((RedisClient.setShard R k r).shards j)
      ((InMemoryFrontier.setShard st k m).shards j) := by
  by_cases hj : j = k
  · subst hj
    simpa [RedisClient.setShard, InMemoryFrontier.setShard] using hrm
  · simpa [RedisClient.setShard, InMemoryFrontier.setShard, hj] using hmir j

/-- Nothing on this shard: the others decide, and they are as they were. -/
theorem Settled.tail {now : Nat} {k : ShardKey} {ks : List ShardKey} {st : FrontierState}
    {soonest : Option Nat} (h : Settled now (k :: ks) st soonest) (hk : k ∉ ks)
    (hnot : ¬ (st.shards k).Claimable) (m : ShardState) :
    Settled now ks (InMemoryFrontier.setShard st k m) (sooner (st.shards k).soonest soonest) := by
  have hother : ∀ j ∈ ks, (InMemoryFrontier.setShard st k m).shards j = st.shards j := by
    intro j hj
    have hne : j ≠ k := fun he => hk (he ▸ hj)
    simp [InMemoryFrontier.setShard, hne]
  rcases h with ⟨j, hj, hclaim⟩ | ⟨hlate, hall⟩
  · rcases List.mem_cons.1 hj with rfl | hj
    · exact absurd hclaim hnot
    · exact .inl ⟨j, hj, by rw [hother j hj]; exact hclaim⟩
  · refine .inr ⟨lt_sooner (fun t ht => ?_) hlate, fun j hj => ?_⟩
    · obtain ⟨p, hp, rfl⟩ := mem_soonest ht
      exact hall k List.mem_cons_self p hp
    · rw [hother j hj]
      exact hall j (List.mem_cons_of_mem _ hj)

/-- Both sweeps have asked every shard. -/
theorem swept_nil {now : Nat} {R : Redis (List UrlId)} {st : FrontierState} {hint soonest : Option Nat}
    (hmir : ∀ k, Mirrors W (HostOf F H k) (R.shards k) (st.shards k))
    (hhint : hint.isSome = soonest.isSome) (hset : Settled now [] st soonest) :
    Swept F W H st.claimCursor (F.sweep W now [] R hint) ((doubleOf F).sweep now [] st soonest) := by
  have hlate : ∀ t ∈ soonest, now < t := by
    rcases hset with ⟨k, hk, -⟩ | ⟨hlate, -⟩
    · cases hk
    · exact hlate
  refine ⟨?_, hmir, rfl, ?_⟩
  · cases hint with
    | none =>
      cases soonest with
      | none => rfl
      | some t => cases hhint
    | some ms =>
      cases soonest with
      | none => cases hhint
      | some t =>
        have hlt := hlate t rfl
        simp [RedisClient.sweep, RedisClient.claimReply, InMemoryFrontier.sweep,
          InMemoryFrontier.claimReply, hlt]
  · refine ⟨[], by simp, ?_, ?_⟩
    · cases hint <;> rfl
    · simp only [InMemoryFrontier.sweep]
      split <;> rfl

theorem swept {now : Nat} (ht : Plain (now + F.leaseTimeout)) {ks : List ShardKey} (hnd : ks.Nodup)
    (hown : ∀ k ∈ ks, k ∈ F.ownedShards) : ∀ (R : Redis (List UrlId)) (st : FrontierState)
      (hint soonest : Option Nat),
      (∀ k, Mirrors W (HostOf F H k) (R.shards k) (st.shards k)) → hint.isSome = soonest.isSome →
      Settled now ks st soonest →
      Swept F W H st.claimCursor (F.sweep W now ks R hint) ((doubleOf F).sweep now ks st soonest) := by
  induction ks with
  | nil => exact fun R st hint soonest hmir hhint hset => swept_nil hmir hhint hset
  | cons k ks ih =>
    intro R st hint soonest hmir hhint hset
    obtain ⟨hk, hnd⟩ := List.nodup_cons.1 hnd
    obtain ⟨hlease, hlease'⟩ := leaseMs_plain ht
    have hc := (hmir k).claim (oneHost F H k) ht
    rw [← hlease, ← hlease'] at hc
    have hown' : ∀ j ∈ ks, j ∈ F.ownedShards := fun j hj => hown j (List.mem_cons_of_mem _ hj)
    generalize ha : (R.shards k).claim now F.leaseMs = a at hc
    generalize hb : (st.shards k).popOneReady now (doubleOf F).leaseTimeoutMs = b at hc
    cases hc with
    | @found r m u e h hgood hrm =>
      simp only [RedisClient.sweep, InMemoryFrontier.sweep, ha, hb, parse_claimed]
      refine ⟨rfl, mirrors_setShard hmir hrm, rfl, [(k, u)], ?_, ?_, rfl⟩
      · intro d hd
        rw [List.mem_singleton.1 hd]
        exact ⟨hown k List.mem_cons_self, by rw [← hgood.1]; exact hgood⟩
      · simp [RedisClient.attemptOf, hgood.1]
    | @hint r h t hnot hw hplain hrm =>
      have hsome : (st.shards k).soonest.isSome := by
        rw [isSome_soonest]
        exact List.ne_nil_of_mem (mem_entries_iff.2 hw)
      rw [sweep_nothing hb]
      simp only [RedisClient.sweep, ha, parse_hint W hplain]
      refine ih hnd hown' _ _ _ _ (mirrors_setShard hmir hrm) ?_ (hset.tail hk hnot _)
      rw [isSome_sooner]
      exact (Bool.or_eq_true_iff.2 (.inl hsome)).symm
    | @empty r hnot hw hrm =>
      have hnone : (st.shards k).soonest = none := by
        rw [← Option.not_isSome_iff_eq_none, isSome_soonest, not_not]
        refine List.eq_nil_iff_forall_not_mem.2 fun p hp => ?_
        have hp := mem_entries_iff.1 hp
        rw [hw p.1] at hp
        cases hp
      have hnone' : ({ st.shards k with ready := [] } : ShardState).soonest = none := hnone
      rw [sweep_nothing hb]
      simp only [RedisClient.sweep, ha, parseClaimValue]
      refine ih hnd hown' _ _ _ _ (mirrors_setShard hmir hrm) ?_ (hset.tail hk hnot _)
      rw [isSome_sooner, hnone', hhint]
      rfl

theorem Twins.claim (hT : Twins F W H S) (hF : OwnsAll F) {now : Nat}
    (ha : Aligned F W S (.claim now)) :
    Agree F W S (.claim now) ∧ Twins F W H (S.step F W (.claim now)) := by
  obtain ⟨ht, hcond⟩ := ha
  by_cases hnil : F.ownedShards = []
  · have hnil' : (doubleOf F).ownedShards = [] := hnil
    simp only [Agree, step, RedisClient.exec, RedisClient.claim, if_pos hnil, InMemoryFrontier.exec,
      InMemoryFrontier.claim, if_pos hnil']
    exact ⟨rfl, hT.shards, hT.cursor, hT.attempts.append ⟨[], by simp, rfl, rfl⟩⟩
  · have hnil' : (doubleOf F).ownedShards ≠ [] := hnil
    have hrot : InMemoryFrontier.rotation (doubleOf F).ownedShards S.memory.frontier.claimCursor =
        F.ownedShards.rotate (S.redis.frontier.claimCursor.toNat % F.ownedShards.length) := by
      rw [hT.cursor]
      rfl
    generalize hks : F.ownedShards.rotate
      (S.redis.frontier.claimCursor.toNat % F.ownedShards.length) = ks at hrot
    have hnd : ks.Nodup := by
      rw [← hks, List.nodup_rotate]
      exact hF.nodup
    have hmem : ∀ k, k ∈ ks ↔ k ∈ F.ownedShards := by
      intro k
      rw [← hks, List.mem_rotate]
    have hcond' : Settled now ks S.memory.frontier none := by
      rcases hcond with ⟨k, hk, hclaim⟩ | hlate
      · exact .inl ⟨k, (hmem k).2 hk, hclaim⟩
      · exact .inr ⟨by simp, fun k hk => hlate k ((hmem k).1 hk)⟩
    have hsweep := swept (W := W) (H := H) ht hnd (fun k hk => (hmem k).1 hk) S.redis.frontier.redis
      { S.memory.frontier with claimCursor := S.memory.frontier.claimCursor + 1 } none none hT.shards
      rfl hcond'
    simp only [Agree, step, RedisClient.exec, RedisClient.claim, if_neg hnil, hks, InMemoryFrontier.exec,
      InMemoryFrontier.claim, if_neg hnil', hrot]
    refine ⟨hsweep.reply, hsweep.shards, ?_, hT.attempts.append hsweep.attempts⟩
    rw [hsweep.cursor, hT.cursor]

/-! ## Runs -/

theorem twins_init : Twins F W H {} where
  shards _ := mirrors_fresh W _
  cursor := rfl
  attempts := ⟨[], by simp, rfl, rfl⟩

/-- An aligned call has the same reply and keeps the shards alike. -/
theorem Twins.step (hT : Twins F W H S) (hF : OwnsAll F) {c : FrontierCall} (hp : Premise F H S c)
    (ha : Aligned F W S c) : Agree F W S c ∧ Twins F W H (S.step F W c) := by
  cases c with
  | submit e now => exact hT.submit hF hp ha
  | submitBatch es order now => exact hT.submitBatch hF hp ha.1 ha.2
  | claim now => exact hT.claim hF ha
  | advanceWake host untilMs => exact hT.advanceWake hF ha.1 ha.2
  | ack d => exact hT.ack hp
  | tick order now => exact hT.tick hF hp ha

theorem twins_reachable (hF : OwnsAll F)
    (hS : ((runs F W).restrict fun S c => Premise F H S c ∧ Aligned F W S c).Reachable S) :
    Twins F W H S := by
  have hind : ((runs F W).restrict fun S c => Premise F H S c ∧ Aligned F W S c).Inductive
      (Twins F W H) := by
    refine ⟨fun S h0 => ?_, fun S c S' hT hst => ?_⟩
    · have h0 : S = {} := h0
      rw [h0]
      exact twins_init
    · obtain ⟨⟨hp, ha⟩, hst⟩ := hst
      have hst : some (S.step F W c) = some S' := hst
      cases hst
      exact (hT.step hF hp ha).2
  exact hind.reachable S hS

/-- **Where the double is faithful.** In every run whose calls meet the premises and are aligned, the
two frontiers give the same replies. -/
theorem same_replies (F : RedisClient) (W : Wire) (H : ShardKey → Host) (hF : OwnsAll F) (S : Pair)
    (hS : ((runs F W).restrict fun S c => Premise F H S c ∧ Aligned F W S c).Reachable S)
    (c : FrontierCall) (hp : Premise F H S c) (ha : Aligned F W S c) : Agree F W S c :=
  ((twins_reachable hF hS).step hF hp ha).1

/-! ### A seed and its claim -/

/-- One shard, no quota, a lease of a minute. -/
def sample : RedisClient := ⟨⟨⟨1, HostHashShardPolicy.one_shard⟩, [0], ⟨none, none, fun _ => none⟩⟩, 60000, 1000⟩

theorem ownsAll_sample : OwnsAll sample where
  nodup := List.nodup_singleton 0
  all k hk := by
    have hk : k.toNat < 1 := hk
    have h0 : k = 0 := UInt32.toNat_inj.1 (by simpa using hk)
    simp [sample, h0]

theorem eq_zero_of_mem_sample {k : ShardKey} (hk : k ∈ sample.ownedShards) : k = 0 := by
  simpa [sample] using hk

/-- The seed is submitted at 0. -/
def seeded : Pair := step sample .sample {} (.submit .seedA 0)

/-- The same replies in every run that meets the premises. -/
def Faithful (F : RedisClient) (W : Wire) (H : ShardKey → Host) : Prop :=
  ∀ S, ((runs F W).restrict (Premise F H)).Reachable S → ∀ c, Premise F H S c → Agree F W S c

/-- Right after the seed there is nothing to claim, and its host is due: Redis hints, the double does
not. -/
theorem not_faithful : ¬ Faithful sample .sample fun _ => "a.test" := by
  intro h
  have hseed : ((runs sample .sample).restrict (Premise sample fun _ => "a.test")).Reachable seeded :=
    .step (l := .submit .seedA 0) (.init rfl) ⟨rfl, rfl⟩
  have hagree := h seeded hseed (.claim 0) trivial
  exact absurd hagree (by unfold Agree; decide +kernel)

/-- After a tick both hand out the seed. -/
theorem same_replies_seed : ((doubleOf sample).exec .sample
    (step sample .sample seeded (.tick .asIs 0)).memory (.claim 0)).1 = .claimed Wire.idA .seedA := by
  have hplain : Plain 0 := by unfold Plain; decide
  have hplain' : Plain (0 + sample.leaseTimeout) := by unfold Plain; decide
  have hpremise : Premise sample (fun _ => "a.test") seeded (.tick .asIs 0) := by
    intro k hk
    rw [eq_zero_of_mem_sample hk]
    decide +kernel
  have haligned : Aligned sample .sample seeded (.tick .asIs 0) := by
    refine ⟨hplain, fun k hk => ?_⟩
    rw [eq_zero_of_mem_sample hk]
    decide +kernel
  have hseed : ((runs sample .sample).restrict fun S c =>
      Premise sample (fun _ => "a.test") S c ∧ Aligned sample .sample S c).Reachable seeded :=
    .step (l := .submit .seedA 0) (.init rfl) ⟨⟨rfl, hplain⟩, rfl⟩
  have hagree := same_replies sample .sample (fun _ => "a.test") ownsAll_sample _
    (.step (l := .tick .asIs 0) hseed ⟨⟨hpremise, haligned⟩, rfl⟩) (.claim 0) trivial
    ⟨hplain', .inl ⟨0, by simp [sample], "a.test", by decide +kernel, by decide +kernel⟩⟩
  exact hagree.symm.trans (by decide +kernel)

end Pair

end Fakes

end Crawlrs
