import Crawlrs.L3Frontier.Records
import Crawlrs.L4Runtime.Trips

/-!
# Any number of clients over one Redis

The clients of a run share the keyspaces and the sharding policy. Any of them may
start any call at any time, calls overlap, a round-trip may fail before the server has
executed it or after, and a process may be gone in the middle of a call. An attempt id
that a claim has returned may be acknowledged by anyone, any number of times.

* `shard_simulation`: whatever the fleet does is, on one shard, a run of `system`. The
  items of that run are the offered ones that hash to the shard, and every attempt id a
  worker holds is one of its deliveries.
-/
namespace Crawlrs

variable {β : Type}

open Prog (Log Safe safe_bind)

/-! ## The fleet -/

/-- The keyspaces, and the attempt ids claims have returned. -/
structure Fleet (β : Type) where
  shards : ShardKey → Shard β
  tickets : List String

/-- The calls of `trait Frontier`, with what they read of the clock and the cursor.
mirrors crates/crawlrs-core/src/traits/frontier.rs:126-205 -/
inductive ClientCall
  | submit (now : Int) (e : UrlEntry)
  | submitBatch (order : HashOrder) (now : Int) (es : List UrlEntry)
  | claim (cursor : UInt64) (now : Int)
  | advanceWake (host : Host) (untilMs : UInt64)
  | ack (attempt : String)
  | tick (now : Int)

namespace ClientCall

/-- What the call offers to the frontier. -/
def entries : ClientCall → List UrlEntry
  | .submit _ e => [e]
  | .submitBatch _ _ es => es
  | _ => []

/-- The attempt id of a claimed URL is what the caller keeps. -/
def prog (W : Wire) (F : RedisClient) : ClientCall → Trips (Option String)
  | .submit now e => do
    let _ ← F.submitTrips now e
    pure none
  | .submitBatch order now es => do
    let _ ← F.submitBatchTrips W order now es
    pure none
  | .claim cursor now => do
    match ← F.claimTrips W cursor now with
    | .ok (.claimed _ _ attempt) => pure (some attempt)
    | _ => pure none
  | .advanceWake host untilMs => do
    let _ ← F.advanceWakeTrips host untilMs
    pure none
  | .ack attempt => do
    let _ ← F.ackTrips attempt
    pure none
  | .tick now => do
    let _ ← F.tickTrips now F.ownedShards 0
    pure none

end ClientCall

namespace Fleet

variable (W : Wire) (B : Sketch UrlId β) (P : HostHashShardPolicy) (U : UrlEntry → Prop)

/-- The keyspaces after the server has executed a trip. -/
def execute (S : Fleet β) (t : Trip) : Fleet β :=
  { S with shards := (serve W B S.shards t).2 }

/-- A trip that is answered, one whose answer is lost, and one that never arrives. -/
inductive Exec : Fleet β → (t : Trip) → t.Answer → Fleet β → Prop
  | replied (S : Fleet β) (t : Trip) : Exec S t (serve W B S.shards t).1 (S.execute W B t)
  | lost (S : Fleet β) (t : Trip) (text : String) : Exec S t (.error text) (S.execute W B t)
  | refused (S : Fleet β) (t : Trip) (text : String) : Exec S t (.error text) S

/-- Clients with the policy `P`; `U` are the entries they may be given. -/
def service : Service (Fleet β) (RedisClient × ClientCall) Trip Trip.Answer (Option String) where
  init S := (∀ k, ∃ seen, S.shards k = .fresh seen) ∧ S.tickets = []
  prog i := i.2.prog W i.1
  starts S i := i.1.policy = P ∧ (∀ e ∈ i.2.entries, U e) ∧ ∀ a, i.2 = .ack a → a ∈ S.tickets
  exec := Exec W B
  finish S a := { S with tickets := S.tickets ++ a.toList }

/-- Every run of the fleet. -/
def runs : LTS (Pool (Fleet β) Trip Trip.Answer (Option String))
    (Service.Label (RedisClient × ClientCall) Trip Trip.Answer) :=
  (service W B P U).pools

end Fleet

/-! ## The fleet, seen from one shard -/

/-- An offered item of the shard. -/
def Item.RoutedTo (P : HostHashShardPolicy) (U : UrlEntry → Prop) (k : ShardKey) (it : Item) : Prop :=
  P.shardKeyFromHost it.host = k ∧ U it.entry

/-- An op whose items and hosts are the shard's own. -/
def Op.RoutedTo (P : HostHashShardPolicy) (U : UrlEntry → Prop) (k : ShardKey) : Op → Prop
  | .submit it _ => it.RoutedTo P U k
  | .submitBatch its _ => ∀ p ∈ its, p.1.RoutedTo P U k
  | .advanceWake h _ => P.shardKeyFromHost h = k
  | _ => True

/-- The ops of a shard in a state that a command is. An ack's commands are those of the delivery
they name. -/
def Cmd.IsOp (s : Sys β) : Cmd → Op → Prop
  | .submit it now, op => op = .submit it now
  | .submitBatch its now, op => op = .submitBatch its now
  | .claim now leaseMs, op => op = .claim now leaseMs
  | .promote now limit, op => op = .promote now limit
  | .reclaim now limit, op => op = .reclaim now limit
  | .advanceWake h untilMs, op => op = .advanceWake h untilMs
  | .zrem l, op => ∃ d, s.deliveries[d]? = some l ∧ op = .ackZrem d
  | .hdel l, op => ∃ d, s.deliveries[d]? = some l ∧ d ∈ s.zremed ∧ op = .ackHdel d

theorem Cmd.IsOp.step {E : Env β} {s : Sys β} {c : Cmd} {op : Op} (h : c.IsOp s op) :
    ∃ s', s.step E op = some s' ∧ s'.shard = (c.exec E.wire E.bloom s.shard).1 := by
  cases c with
  | zrem l =>
    obtain ⟨d, hd, rfl⟩ := h
    exact ⟨{ s with shard := s.shard.ackZrem l, zremed := d :: s.zremed },
      by simp [Sys.step, hd], rfl⟩
  | hdel l =>
    obtain ⟨d, hd, hz, rfl⟩ := h
    exact ⟨{ s with shard := s.shard.ackHdel l.urlId, hdeled := d :: s.hdeled },
      by simp [Sys.step, hd, hz], rfl⟩
  | _ =>
    cases h
    exact ⟨_, rfl, rfl⟩

/-- A shard, and the attempt ids the workers hold. -/
structure Staffed (β : Type) where
  sys : Sys β
  tickets : List String

/-- What happens to a shard: an op, or a worker has its attempt id. -/
inductive Move
  | op (op : Op)
  | grant (attempt : Option String)

namespace Fleet

/-- If the attempt id is one of this shard, its lease has been delivered. -/
def Delivered (E : Env β) (attempt : String) (s : Sys β) : Prop :=
  ∀ u h, decodeAttempt attempt = .ok (E.shard, u, h) → (⟨u, h⟩ : Lease) ∈ s.deliveries

/-- A worker holds an attempt id of the lease. -/
def Ticket (E : Env β) (l : Lease) (tickets : List String) : Prop :=
  ∃ a ∈ tickets, decodeAttempt a = .ok (E.shard, l.urlId, l.host)

/-- An ack is of a lease that a worker holds. -/
def TicketedOp (E : Env β) (t : Staffed β) : Op → Prop
  | .ackZrem d => ∃ l, t.sys.deliveries[d]? = some l ∧ Ticket E l t.tickets
  | _ => True

/-- The runs of a shard that the fleet can cause. -/
inductive ShardStep (E : Env β) (P : HostHashShardPolicy) (U : UrlEntry → Prop) :
    Staffed β → Move → Staffed β → Prop
  | op {t : Staffed β} {op : Op} {s' : Sys β} : op.RoutedTo P U E.shard → TicketedOp E t op →
      t.sys.step E op = some s' → ShardStep E P U t (.op op) ⟨s', t.tickets⟩
  | grant {t : Staffed β} {a : Option String} : (∀ attempt ∈ a, Delivered E attempt t.sys) →
      ShardStep E P U t (.grant a) ⟨t.sys, t.tickets ++ a.toList⟩

def shardRuns (E : Env β) (P : HostHashShardPolicy) (U : UrlEntry → Prop) : LTS (Staffed β) Move where
  init t := (∃ seen, t.sys = .init seen) ∧ t.tickets = []
  step := ShardStep E P U

/-- A trip, seen from the shard: a trip to another one is nothing to it. -/
def acts (E : Env β) (t : Staffed β) (c : Trip) (r : c.Answer) (t' : Staffed β) : Prop :=
  (t' = t ∧ (c.shard = E.shard → ∃ text, r = .error text)) ∨
    (c.shard = E.shard ∧ t'.tickets = t.tickets ∧ ∃ op, c.cmd.IsOp t.sys op ∧
      t.sys.step E op = some t'.sys ∧ ∀ x, r = .ok x → x = (c.cmd.exec E.wire E.bloom t.sys.shard).2)

/-- Every trip to the shard is an op it can execute, with items of its own. -/
def Legal (E : Env β) (P : HostHashShardPolicy) (U : UrlEntry → Prop) (t : Staffed β) (c : Trip) :
    Prop :=
  c.shard = E.shard → ∃ op, c.cmd.IsOp t.sys op ∧ op.RoutedTo P U E.shard ∧ TicketedOp E t op

/-- Delivered, and in the hands of a worker. -/
def Owned (E : Env β) (l : Lease) (t : Staffed β) : Prop :=
  l ∈ t.sys.deliveries ∧ Ticket E l t.tickets

/-- A delivery of the lease whose `ZREM` has been executed. -/
def Removed (l : Lease) (t : Staffed β) : Prop :=
  ∃ d, t.sys.deliveries[d]? = some l ∧ d ∈ t.sys.zremed

variable {E : Env β} {P : HostHashShardPolicy} {U : UrlEntry → Prop} {t t' : Staffed β}

/-- The fleet around one call. -/
def world (E : Env β) (P : HostHashShardPolicy) (U : UrlEntry → Prop) :
    World (Staffed β) Trip Trip.Answer :=
  Service.worldOf (shardRuns E P U) (acts E)

/-- Deliveries and attempt ids are for good. -/
theorem ShardStep.grows {m : Move} (h : ShardStep E P U t m t') :
    t.sys.deliveries <+: t'.sys.deliveries ∧ t.sys.zremed ⊆ t'.sys.zremed ∧ t.tickets ⊆ t'.tickets := by
  cases h with
  | op _ _ hst =>
    have hg := Sys.step_grows hst
    exact ⟨hg.deliveries, fun d hd => (hg.zremed d).2 (.inl hd), List.Subset.refl _⟩
  | grant _ => exact ⟨List.prefix_rfl, List.Subset.refl _, List.subset_append_left _ _⟩

theorem Ticket.mono {l : Lease} {as as' : List String} (h : Ticket E l as) (hs : as ⊆ as') :
    Ticket E l as' := by
  obtain ⟨a, ha, hd⟩ := h
  exact ⟨a, hs ha, hd⟩

theorem stable_delivered (attempt : String) :
    (world E P U).Stable fun t => Delivered E attempt t.sys := by
  intro t t' ht ⟨m, hst⟩ u h hd
  exact hst.grows.1.subset (ht u h hd)

theorem stable_owned (l : Lease) : (world E P U).Stable (Owned E l) := by
  intro t t' ht ⟨m, hst⟩
  exact ⟨hst.grows.1.subset ht.1, ht.2.mono hst.grows.2.2⟩

theorem stable_removed (l : Lease) : (world E P U).Stable (Removed l) := by
  intro t t' ⟨d, hd, hz⟩ ⟨m, hst⟩
  obtain ⟨ds, hds⟩ := hst.grows.1
  refine ⟨d, ?_, hst.grows.2.1 hz⟩
  rw [← hds, List.getElem?_append_left (List.getElem?_eq_some_iff.1 hd).1, hd]

theorem stable_true : (world E P U).Stable fun _ => True := fun _ _ _ _ => trivial

/-! ### The calls, one by one -/

/-- `Legal` for every trip. -/
abbrev SafeTrips (E : Env β) (P : HostHashShardPolicy) (U : UrlEntry → Prop) {α : Type}
    (post : α → Staffed β → Prop) (p : Trips α) (log : Log Trip Trip.Answer) (t : Staffed β) : Prop :=
  Safe (world E P U) (fun _ => Legal E P U) (fun a _ => post a) p log t

variable {log : Log Trip Trip.Answer}

/-- A trip that is legal wherever it is made. -/
theorem safe_trip {c : Trip} {post : c.Answer → Log Trip Trip.Answer → Staffed β → Prop}
    {K : Staffed β → Prop} (hK : (world E P U).Stable K) (ht : K t)
    (hok : ∀ t, K t → Legal E P U t c)
    (h : ∀ t r t', K t → acts E t c r t' → post r (⟨c, r⟩ :: log) t') :
    Safe (world E P U) (fun _ => Legal E P U) post (trip c) log t :=
  Prog.safe_perform hK ht hok h

/-- A command that needs no delivery. -/
theorem safe_free {c : Trip} (op : Op) (hop : ∀ s : Sys β, c.cmd.IsOp s op)
    (hr : c.shard = E.shard → op.RoutedTo P U E.shard) (hack : ∀ d, op ≠ .ackZrem d) :
    SafeTrips E P U (fun _ _ => True) (trip c) log t := by
  refine safe_trip stable_true trivial (fun t _ hk => ⟨op, hop t.sys, hr hk, ?_⟩)
    fun _ _ _ _ _ => trivial
  cases op with
  | ackZrem d => exact absurd rfl (hack d)
  | _ => trivial

/-- A claim that returns a URL has put it among the deliveries. -/
theorem safe_claim (k : ShardKey) (now leaseMs : Int) :
    SafeTrips E P U (fun r t => ∀ u e h, r = .ok (.claimed u e h) → k = E.shard →
      (⟨u, h⟩ : Lease) ∈ t.sys.deliveries) (HostQueueOps.claim E.wire k now leaseMs) log t := by
  refine safe_bind (safe_trip stable_true trivial
    (fun t _ _ => ⟨.claim now leaseMs, rfl, trivial, trivial⟩) fun t r t' _ ha => ?_)
  cases r with
  | error text => exact fun u e h hr => by cases hr
  | ok reply =>
    dsimp only
    cases hp : parseClaimValue E.wire reply with
    | error err => exact fun u e h hr => by cases hr
    | ok raw =>
      intro u e h hr hk
      cases hr
      obtain ⟨-, hno⟩ | ⟨-, -, op, rfl, hst, hreply⟩ := ha
      · obtain ⟨text, ht⟩ := hno hk
        cases ht
      · have hd : E.delivered reply = [⟨u, h⟩] := by simp [Env.delivered, hp]
        rw [Sys.step_delivers hst, Op.delivers]
        have he : reply = (t.sys.shard.claim now leaseMs).2 := hreply reply rfl
        rw [← he, hd]
        exact List.mem_append_right _ List.mem_cons_self

/-- An ack of a lease in the caller's hands: `ZREM`, and `HDEL` only where the `ZREM` has been
executed. -/
theorem safe_ack (k : ShardKey) (l : Lease) (hl : k = E.shard → Owned E l t) :
    SafeTrips E P U (fun _ _ => True) (HostQueueOps.ack k l) log t := by
  have hstable : (world E P U).Stable fun t => k = E.shard → Owned E l t :=
    fun t t' h he hk => stable_owned l t t' (h hk) he
  refine safe_bind (safe_trip hstable hl (fun t ht hk => ?_) fun t r t' _ ha => ?_)
  · obtain ⟨d, hd⟩ := List.getElem?_of_mem (ht hk).1
    exact ⟨.ackZrem d, ⟨d, hd, rfl⟩, trivial, l, hd, (ht hk).2⟩
  · cases r with
    | error text => trivial
    | ok u =>
      have hrem : k = E.shard → Removed l t' := by
        intro hk
        obtain ⟨-, hno⟩ | ⟨-, -, op, ⟨d, hd, rfl⟩, hst, -⟩ := ha
        · obtain ⟨text, ht⟩ := hno hk
          cases ht
        · have hg := Sys.step_grows hst
          exact ⟨d, hg.delivery hd, (hg.zremed d).2 (.inr rfl)⟩
      refine safe_trip (K := fun t => k = E.shard → Removed l t)
        (fun t t' h he hk => stable_removed l t t' (h hk) he) hrem (fun t ht hk => ?_)
        fun _ _ _ _ _ => trivial
      obtain ⟨d, hd, hz⟩ := ht hk
      exact ⟨.ackHdel d, ⟨d, hd, hz, rfl⟩, trivial, trivial⟩

/-! ### Routing -/

theorem routedTo_of_route {F : RedisClient} (hF : F.policy = P) {e : UrlEntry} (he : U e)
    {k : ShardKey} {it : Item} (h : F.route e = .ok (k, it)) : it.RoutedTo P U k := by
  unfold RedisClient.route at h
  dsimp only at h
  split at h
  · cases h
  · split at h
    · cases h
    · rename_i host hhost
      cases h
      refine ⟨?_, he⟩
      simp [HostHashShardPolicy.shardKey, hhost, hF]

theorem routedTo_of_routeAll {F : RedisClient} (hF : F.policy = P) {es : List UrlEntry} :
    (∀ e ∈ es, U e) → ∀ {rs : List (ShardKey × Item)}, F.routeAll es = .ok rs →
      ∀ p ∈ rs, p.2.RoutedTo P U p.1 := by
  induction es with
  | nil =>
    intro _ rs h p hp
    cases h
    cases hp
  | cons e es ih =>
    intro hes rs h p hp
    unfold RedisClient.routeAll at h
    split at h
    · cases h
    · rename_i r hr
      split at h
      · cases h
      · rename_i rs' hrs
        cases h
        obtain rfl | hp := List.mem_cons.1 hp
        · exact routedTo_of_route hF (hes e List.mem_cons_self) hr
        · exact ih (fun e he => hes e (List.mem_cons_of_mem _ he)) hrs p hp

/-! ### The calls of a client -/

variable {F : RedisClient}

/-- What a call leaves with its caller. -/
def Kept (E : Env β) (a : Option String) (t : Staffed β) : Prop :=
  ∀ attempt ∈ a, Delivered E attempt t.sys

theorem kept_none : Kept E none t := fun _ h => by cases h

/-- A call whose result is dropped. -/
theorem safe_drop {α : Type} {p : Trips α} (h : SafeTrips E P U (fun _ _ => True) p log t) :
    SafeTrips E P U (Kept E) (p >>= fun _ => pure none) log t :=
  safe_bind (h.mono fun _ _ _ _ => kept_none)

theorem safe_sweepTrips (now : Int) (ks : List ShardKey) : ∀ (soonest : Option Nat)
    (log : Log Trip Trip.Answer) (t : Staffed β), SafeTrips E P U
      (fun r t => ∀ u e attempt, r = .ok (.claimed u e attempt) → Delivered E attempt t.sys)
      (F.sweepTrips E.wire now ks soonest) log t := by
  induction ks with
  | nil =>
    intro soonest log t u e attempt hr
    cases soonest <;> cases hr
  | cons k ks ih =>
    intro soonest log t
    refine safe_bind ((safe_claim k now F.leaseMs).mono fun r log t hr => ?_)
    cases r with
    | error err => exact fun u e attempt h => by cases h
    | ok raw =>
      cases raw with
      | claimed u e host =>
        intro u' e' attempt h v x hd
        cases h
        rw [decodeAttempt_encodeAttempt] at hd
        cases hd
        exact hr u e host rfl rfl
      | emptyHint ms => exact ih _ _ _
      | empty => exact ih _ _ _

theorem safe_batchTrips (now : Int) {rs : List (ShardKey × Item)}
    (hrs : ∀ p ∈ rs, p.2.RoutedTo P U p.1) (ks : List ShardKey) : ∀ (total : SubmitBatchOutcome)
    (log : Log Trip Trip.Answer) (t : Staffed β),
      SafeTrips E P U (fun _ _ => True) (F.batchTrips E.wire now rs ks total) log t := by
  induction ks with
  | nil => intro total log t; trivial
  | cons k ks ih =>
    intro total log t
    have hop : SafeTrips E P U (fun _ _ => True) (HostQueueOps.submitBatch k
        (((rs.filter (·.1 = k)).map Prod.snd).map fun it => (it, F.maxUrls it.host)) now) log t := by
      rw [HostQueueOps.submitBatch]
      split
      · trivial
      · refine safe_free (.submitBatch _ now) (fun _ => rfl) (fun hk p hp => ?_)
          fun d h => by cases h
        obtain ⟨it, hit, rfl⟩ := List.mem_map.1 hp
        obtain ⟨q, hq, rfl⟩ := List.mem_map.1 hit
        obtain ⟨hq, hqk⟩ := List.mem_filter.1 hq
        have hroute := hrs q hq
        have hk : k = E.shard := hk
        rwa [of_decide_eq_true hqk, hk] at hroute
    refine safe_bind (hop.mono fun r log t _ => ?_)
    cases r with
    | error text => trivial
    | ok res => exact ih _ _ _

theorem safe_tickTrips (now : Int) (ks : List ShardKey) : ∀ (n : Nat) (log : Log Trip Trip.Answer)
    (t : Staffed β), SafeTrips E P U (fun _ _ => True) (F.tickTrips now ks n) log t := by
  induction ks with
  | nil => intro n log t; trivial
  | cons k ks ih =>
    intro n log t
    refine safe_bind (Safe.mono (fun promoted log t _ => ?_)
      (safe_free (.promote now F.tickBatchLimit) (fun _ => rfl) (fun _ => trivial) fun d h => by cases h))
    refine safe_bind (Safe.mono (fun reclaimed log t _ => ?_)
      (safe_free (.reclaim now F.tickBatchLimit) (fun _ => rfl) (fun _ => trivial) fun d h => by cases h))
    exact ih _ _ _

theorem safe_prog (hF : F.policy = P) {c : ClientCall} (hU : ∀ e ∈ c.entries, U e)
    (hack : ∀ a, c = .ack a → a ∈ t.tickets ∧ Delivered E a t.sys) :
    SafeTrips E P U (Kept E) (c.prog E.wire F) log t := by
  cases c with
  | submit now e =>
    refine safe_drop ?_
    unfold RedisClient.submitTrips
    cases hr : F.route e with
    | error err => trivial
    | ok r =>
      have hroute := routedTo_of_route (U := U) hF (hU e List.mem_cons_self) hr
      have hop : SafeTrips E P U (fun _ _ => True) (HostQueueOps.submit r.1 r.2 now) log t :=
        safe_free (.submit r.2 now) (fun _ => rfl) (fun hk => by
          have hk : r.1 = E.shard := hk
          exact hk ▸ hroute) fun d h => by cases h
      refine safe_bind (hop.mono fun res log t _ => ?_)
      cases res <;> trivial
  | submitBatch order now es =>
    refine safe_drop ?_
    unfold RedisClient.submitBatchTrips
    split
    · trivial
    · cases hr : F.routeAll es with
      | error err => trivial
      | ok rs => exact safe_batchTrips now (routedTo_of_routeAll hF hU hr) _ _ _ _
  | claim cursor now =>
    have hsweep : SafeTrips E P U
        (fun r t => ∀ u e attempt, r = .ok (.claimed u e attempt) → Delivered E attempt t.sys)
        (F.claimTrips E.wire cursor now) log t := by
      unfold RedisClient.claimTrips
      split
      · exact fun u e attempt h => by cases h
      · exact safe_sweepTrips now _ _ _ _
    refine safe_bind (hsweep.mono fun r log t hr => ?_)
    cases r with
    | error err => exact kept_none
    | ok outcome =>
      cases outcome with
      | claimed u e attempt =>
        intro a ha
        cases ha
        exact hr u e attempt rfl
      | emptyHint ms => exact kept_none
      | empty => exact kept_none
  | advanceWake host untilMs =>
    refine safe_drop ?_
    unfold RedisClient.advanceWakeTrips
    dsimp only
    split
    · have hop : SafeTrips E P U (fun _ _ => True) (HostQueueOps.advanceWake
          (F.policy.shardKeyFromHost host) host untilMs.toInt64.toInt) log t :=
        safe_free (.advanceWake host untilMs.toInt64.toInt) (fun _ => rfl) (fun hk => by
          have hk : F.policy.shardKeyFromHost host = E.shard := hk
          rw [hF] at hk
          exact hk) fun d h => by cases h
      refine safe_bind (hop.mono fun res log t _ => ?_)
      cases res <;> trivial
    · trivial
  | ack attempt =>
    refine safe_drop ?_
    unfold RedisClient.ackTrips
    cases hd : decodeAttempt attempt with
    | error raw => trivial
    | ok p =>
      obtain ⟨k, u, h⟩ := p
      dsimp only
      split
      · have hl : k = E.shard → Owned E ⟨u, h⟩ t := by
          rintro rfl
          obtain ⟨hmem, hdel⟩ := hack attempt rfl
          exact ⟨hdel u h hd, attempt, hmem, hd⟩
        refine safe_bind ((safe_ack k ⟨u, h⟩ hl).mono fun res log t _ => ?_)
        cases res <;> trivial
      · trivial
  | tick now => exact safe_drop (safe_tickTrips now _ _ _ _)

/-! ## Every run of the fleet is a run of its shards -/

/-- The shard as the fleet has it; what the workers hold are deliveries of it. -/
structure Sees (E : Env β) (S : Fleet β) (t : Staffed β) : Prop where
  shard : t.sys.shard = S.shards E.shard
  tickets : t.tickets = S.tickets
  delivered : ∀ attempt ∈ S.tickets, Delivered E attempt t.sys

theorem Sees.execute {S : Fleet β} {c : Trip} (hS : Sees E S t) (hok : Legal E P U t c)
    {r : c.Answer}
    (hr : ∀ x, r = .ok x → x = (c.cmd.exec E.wire E.bloom (S.shards c.shard)).2) :
    ∃ t', acts E t c r t' ∧ (t' = t ∨ ∃ m, (shardRuns E P U).step t m t') ∧
      Sees E (S.execute E.wire E.bloom c) t' := by
  by_cases hk : c.shard = E.shard
  · obtain ⟨op, hop, hroute, hticket⟩ := hok hk
    obtain ⟨s', hst, hs'⟩ := hop.step (E := E)
    have hmove : ShardStep E P U t (.op op) ⟨s', t.tickets⟩ := .op hroute hticket hst
    rw [hk, ← hS.shard] at hr
    refine ⟨⟨s', t.tickets⟩, Or.inr ⟨hk, rfl, op, hop, hst, hr⟩, Or.inr ⟨_, hmove⟩, ?_, hS.tickets, ?_⟩
    · simp [Fleet.execute, serve, hk, hs', hS.shard]
    · intro attempt ha
      exact stable_delivered attempt t _ (hS.delivered attempt ha) ⟨_, hmove⟩
  · refine ⟨t, Or.inl ⟨rfl, fun h => absurd h hk⟩, Or.inl rfl, ?_, hS.tickets, hS.delivered⟩
    have hne : E.shard ≠ c.shard := fun h => hk h.symm
    simp [Fleet.execute, serve, hne, hS.shard]

theorem Sees.exec {S S' : Fleet β} {c : Trip} {r : c.Answer} (hS : Sees E S t)
    (hok : Legal E P U t c) (he : Exec E.wire E.bloom S c r S') :
    ∃ t', acts E t c r t' ∧ (t' = t ∨ ∃ m, (shardRuns E P U).step t m t') ∧ Sees E S' t' := by
  cases he with
  | replied => exact hS.execute hok fun x hx => by cases hx; rfl
  | lost text => exact hS.execute hok fun x hx => by cases hx
  | refused text => exact ⟨t, Or.inl ⟨rfl, fun _ => ⟨text, rfl⟩⟩, Or.inl rfl, hS⟩

/-- A call has returned, and its caller keeps what it returned. -/
theorem Sees.finish {S : Fleet β} {a : Option String} (hS : Sees E S t) (hk : Kept E a t) :
    ∃ t', (t' = t ∨ ∃ m, (shardRuns E P U).step t m t') ∧
      Sees E { S with tickets := S.tickets ++ a.toList } t' := by
  refine ⟨⟨t.sys, t.tickets ++ a.toList⟩, Or.inr ⟨.grant a, .grant hk⟩, hS.shard, ?_, ?_⟩
  · rw [hS.tickets]
  · intro attempt ha
    obtain ha | ha := List.mem_append.1 ha
    · exact hS.delivered attempt ha
    · exact hk attempt (Option.mem_toList.1 ha)

theorem shard_simulation (E : Env β) (P : HostHashShardPolicy) (U : UrlEntry → Prop) :
    (runs E.wire E.bloom P U).Simulation (shardRuns E P U) fun S t => Sees E S.state t ∧
      Service.AllSafe (shardRuns E P U) (acts E) (fun _ => Legal E P U) (fun a _ => Kept E a)
        S.tasks t := by
  refine Service.simulation ?_ ?_ ?_ ?_ ?_
  · intro S ⟨h0, ht⟩
    obtain ⟨seen, hseen⟩ := h0 E.shard
    exact ⟨⟨.init seen, []⟩, ⟨⟨seen, rfl⟩, rfl⟩, hseen.symm, ht.symm, by simp [ht]⟩
  · intro S t i hS ⟨hF, hU, hack⟩
    refine safe_prog hF hU fun a ha => ?_
    rw [hS.tickets]
    exact ⟨hack a ha, hS.delivered a (hack a ha)⟩
  · intro S t log c r S' hS hok he
    exact hS.exec hok he
  · intro S t a log hS hk
    exact hS.finish hk
  · intro a log t t' hk he attempt ha
    exact stable_delivered attempt t t' (hk attempt ha) he

end Fleet

end Crawlrs
