import Crawlrs.L2Redis.Effects

/-!
# The frontier of one shard under any number of workers

Workers, the promoter and the publisher share nothing but the shard, and the
server executes one script or command at a time, so a run is a list of `Op`s in
any order. Each script carries the `now_ms` its caller read. `ack` is the two
ops `ackZrem d` and `ackHdel d` for the `d`-th delivery of the run: at any time
after that delivery, `HDEL` after `ZREM`, by a worker whose lease may be long
gone.

`Sys` adds what the claims speak about and the keyspace does not record:

* `accepted`: `(url_id, host)` of every `BF.ADD` that answered 1, in order;
* `deliveries`: every `Ok(Claimed)` a worker received;
* `zremed`, `hdeled`: the deliveries whose ack has executed that command.

`step_effs` is the one inversion lemma: a step is a run of effects of its op.
-/
namespace Crawlrs

variable {β : Type}

/-- The libraries a frontier is built on and the shard it serves. -/
structure Env (β : Type) where
  wire : Wire
  bloom : Sketch UrlId β
  shard : ShardKey

/-- An entry that passed `shard_of`: it has a host. -/
structure Item where
  entry : UrlEntry
  host : Host
  host_eq : entry.url.host = some host
deriving DecidableEq, Repr

inductive Op
  | submit (it : Item) (now : Int)
  /-- each entry with its host's `max_urls`, or -1 -/
  | submitBatch (its : List (Item × Int)) (now : Int)
  | claim (now leaseMs : Int)
  | promote (now : Int) (limit : Nat)
  | reclaim (now : Int) (limit : Nat)
  | advanceWake (h : Host) (untilMs : Int)
  | ackZrem (d : Nat)
  | ackHdel (d : Nat)
deriving DecidableEq, Repr

/-- The clock reading an op carries. -/
def Op.now? : Op → Option Int
  | .submit _ now | .submitBatch _ now | .claim now _ | .promote now _ | .reclaim now _ => some now
  | _ => none

/-- Clock readings do not decrease along a run. -/
def Clocked (tr : List Op) : Prop := (tr.filterMap Op.now?).Pairwise (· ≤ ·)

instance (tr : List Op) : Decidable (Clocked tr) :=
  inferInstanceAs (Decidable ((tr.filterMap Op.now?).Pairwise (· ≤ ·)))

structure Sys (β : Type) where
  shard : Shard β
  accepted : List (UrlId × Host)
  deliveries : List Lease
  zremed : List Nat
  hdeled : List Nat

namespace Sys

def init (seen : β) : Sys β := ⟨.fresh seen, [], [], [], []⟩

end Sys

/-- The `(url_id, host)` an effect admits. -/
def Eff.accepted? : Eff → Option (UrlId × Host)
  | .accept u h _ _ _ => some (u, h)
  | _ => none

namespace Env

variable (E : Env β)

def idOf (it : Item) : UrlId := E.wire.idOf it.entry

def payloadOf (it : Item) : Bytes := E.wire.encode it.entry

/-- mirrors crates/crawlrs-frontier/src/frontier.rs:317-328 -/
def submitItem (p : Item × Int) : Shard.SubmitItem := ⟨E.idOf p.1, p.1.host, E.payloadOf p.1, p.2⟩

/-- The lease a claim's caller now believes to hold.
mirrors crates/crawlrs-frontier/src/frontier.rs:388-411 -/
def delivered (reply : Shard.ClaimReply) : List Lease :=
  match parseClaimValue E.wire reply with
  | .ok (.claimed u _ h) => [⟨u, h⟩]
  | _ => []

/-- The member an ack of delivery `l` removes: what `decode_attempt` finds in the
attempt id `claim` returned, if the shard is owned.
mirrors crates/crawlrs-frontier/src/frontier.rs:527-544 -/
def ackTarget (l : Lease) : Option Lease :=
  match decodeAttempt (encodeAttempt E.shard l.urlId l.host) with
  | .ok (k, u, h) => if k = E.shard then some ⟨u, h⟩ else none
  | .error _ => none

@[simp] theorem ackTarget_eq (l : Lease) : E.ackTarget l = some l := by
  simp [ackTarget, decodeAttempt_encodeAttempt]

end Env

namespace Sys

def step (E : Env β) (s : Sys β) : Op → Option (Sys β)
  | .submit it now =>
    let (shard, outcome) := s.shard.submit E.bloom (E.idOf it) it.host (E.payloadOf it) now
    some { s with
      shard
      accepted := match outcome with
        | .queued => s.accepted ++ [(E.idOf it, it.host)]
        | .skippedDuplicate => s.accepted }
  | .submitBatch its now =>
    let items := its.map E.submitItem
    some { s with
      shard := (Shard.submitBatch E.bloom now items s.shard (0, [])).1
      accepted :=
        s.accepted ++ (Shard.batchEffs E.bloom now items s.shard).filterMap Eff.accepted? }
  | .claim now leaseMs =>
    let (shard, reply) := s.shard.claim now leaseMs
    some { s with shard, deliveries := s.deliveries ++ E.delivered reply }
  | .promote now limit => some { s with shard := (s.shard.promote now limit).1 }
  | .reclaim now limit => some { s with shard := (s.shard.reclaim now limit).1 }
  | .advanceWake h untilMs => some { s with shard := s.shard.advanceWake h untilMs }
  | .ackZrem d => do
    let l ← s.deliveries[d]?
    let m ← E.ackTarget l
    return { s with shard := s.shard.ackZrem m, zremed := d :: s.zremed }
  | .ackHdel d => do
    let l ← s.deliveries[d]?
    let m ← E.ackTarget l
    if d ∈ s.zremed then
      some { s with shard := s.shard.ackHdel m.urlId, hdeled := d :: s.hdeled }
    else none

/-- The `url_id`s for which some ack has executed its `ZREM`. -/
def Zremed (s : Sys β) (u : UrlId) : Prop :=
  ∃ d ∈ s.zremed, ∃ l, s.deliveries[d]? = some l ∧ l.urlId = u

end Sys

/-- Every run of one shard. -/
def system (E : Env β) : LTS (Sys β) Op := LTS.ofFn (fun s => ∃ seen, s = .init seen) (Sys.step E)

/-- The state a list of ops leads to from an empty keyspace. -/
def Sys.after (E : Env β) (seen : β) (tr : List Op) : Sys β := LTS.replay (Sys.step E) (.init seen) tr

theorem reachable_after {E : Env β} {seen : β} {tr : List Op}
    (h : (LTS.runFn (Sys.step E) (.init seen) tr).isSome) :
    (system E).Reachable (.after E seen tr) :=
  LTS.Reachable.steps (.init ⟨seen, rfl⟩) (LTS.steps_replay h)

theorem reachable_after_restrict {E : Env β} {ok : Sys β → Op → Prop} [∀ s op, Decidable (ok s op)]
    {seen : β} {tr : List Op}
    (h : (LTS.runFn (LTS.guarded ok (Sys.step E)) (.init seen) tr).isSome) :
    ((system E).restrict ok).Reachable (.after E seen tr) :=
  LTS.Reachable.steps (.init ⟨seen, rfl⟩) (LTS.restrict_steps_replay h)

/-- An exact filter over the sample wire, shard 0. -/
def Env.sample : Env (List UrlId) := ⟨.sample, .exact, 0⟩

def Item.a : Item := ⟨.seedA, "a.test", rfl⟩

def Item.a' : Item := ⟨.seedA', "a.test", rfl⟩

def Item.b : Item := ⟨.seedB, "b.test", rfl⟩

/-! ## What a step does -/

/-- The effects an op can have in a state. -/
def Op.Effect (E : Env β) (s : Sys β) : Op → Eff → Prop
  | .submit it now, e => e = .accept (E.idOf it) it.host (E.payloadOf it) now false
  | .submitBatch its now, e => ∃ p ∈ its,
      e = .accept (E.idOf p.1) p.1.host (E.payloadOf p.1) now (decide (0 ≤ f64 p.2))
  | .claim now leaseMs, e => (∃ h, e = .stale h) ∨ ∃ u h p,
      (s.shard.claim now leaseMs).2 = .claimed u h p ∧ e = .lease u h (Shard.expiryOf now leaseMs)
  | .promote now limit, e => ∃ h ∈ s.shard.wake.zrangebyscore 0 (f64 now) limit, e = .promote h now
  | .reclaim now limit, e =>
      ∃ l ∈ s.shard.inflight.zrangebyscore 0 (f64 now) limit, e = .reclaim l now
  | .advanceWake h untilMs, e => e = .advance h untilMs
  | .ackZrem d, e => ∃ l, s.deliveries[d]? = some l ∧ e = .zrem l
  | .ackHdel d, e => ∃ l, s.deliveries[d]? = some l ∧ d ∈ s.zremed ∧ e = .hdel l.urlId

/-- What an op adds to the deliveries. -/
def Op.delivers (E : Env β) (s : Sys β) : Op → List Lease
  | .claim now leaseMs => E.delivered (s.shard.claim now leaseMs).2
  | _ => []

/-- How the records of a run grow. -/
structure Grows (s s' : Sys β) (op : Op) : Prop where
  deliveries : s.deliveries <+: s'.deliveries
  zremed : ∀ d, d ∈ s'.zremed ↔ d ∈ s.zremed ∨ op = .ackZrem d
  hdeled : ∀ d, d ∈ s'.hdeled ↔ d ∈ s.hdeled ∨ op = .ackHdel d

namespace Sys

variable {E : Env β} {s s' : Sys β} {op : Op}

theorem ackZrem_inv {d : Nat} (h : s.step E (.ackZrem d) = some s') : ∃ l,
    s.deliveries[d]? = some l ∧
      s' = { s with shard := s.shard.ackZrem l, zremed := d :: s.zremed } := by
  simp only [step, Option.bind_eq_bind, Option.bind_eq_some_iff, Env.ackTarget_eq,
    Option.some.injEq, Option.pure_def] at h
  obtain ⟨l, hl, m, rfl, rfl⟩ := h
  exact ⟨_, hl, rfl⟩

theorem ackHdel_inv {d : Nat} (h : s.step E (.ackHdel d) = some s') : ∃ l,
    s.deliveries[d]? = some l ∧ d ∈ s.zremed ∧
      s' = { s with shard := s.shard.ackHdel l.urlId, hdeled := d :: s.hdeled } := by
  simp only [step, Option.bind_eq_bind, Option.bind_eq_some_iff, Env.ackTarget_eq,
    Option.some.injEq, Option.ite_none_right_eq_some] at h
  obtain ⟨l, hl, m, rfl, hd, rfl⟩ := h
  exact ⟨_, hl, hd, rfl⟩

/-- **Scripts are runs of effects.** Every step is a run of effects its op can
have, and `accepted` records exactly the URLs those effects admit. -/
theorem step_effs (h : s.step E op = some s') : ∃ effs,
    (effects E.bloom).Steps s.shard effs s'.shard ∧ (∀ e ∈ effs, op.Effect E s e) ∧
      s'.accepted = s.accepted ++ effs.filterMap Eff.accepted? := by
  cases op with
  | submit it now =>
    simp only [step, Shard.submit_eq, Option.some.injEq] at h
    by_cases hs : E.bloom.has s.shard.seen (E.idOf it) = true
    · simp only [if_pos hs] at h
      subst h
      exact ⟨[], .nil _, by simp, by simp⟩
    · simp only [if_neg hs] at h
      subst h
      refine ⟨[.accept (E.idOf it) it.host (E.payloadOf it) now false],
        .cons (.accept (by simpa using hs)) (.nil _), ?_, by simp [Eff.accepted?]⟩
      intro e he
      exact List.mem_singleton.1 he
  | submitBatch its now =>
    simp only [step, Option.some.injEq] at h
    subst h
    refine ⟨_, Shard.submitBatch_steps E.bloom now _ _ _, fun e he => ?_, rfl⟩
    obtain ⟨it, hit, rfl⟩ := Shard.mem_batchEffs E.bloom he
    obtain ⟨p, hp, rfl⟩ := List.mem_map.1 hit
    exact ⟨p, hp, rfl⟩
  | claim now leaseMs =>
    simp only [step, Option.some.injEq] at h
    subst h
    obtain ⟨effs, hst, hall⟩ := Shard.claim_steps E.bloom s.shard now leaseMs
    refine ⟨effs, hst, hall, ?_⟩
    have hnone : effs.filterMap Eff.accepted? = [] := by
      refine List.filterMap_eq_nil_iff.2 fun e he => ?_
      rcases hall e he with ⟨h, rfl⟩ | ⟨u, h, p, -, rfl⟩ <;> rfl
    simp [hnone]
  | promote now limit =>
    simp only [step, Option.some.injEq] at h
    subst h
    refine ⟨_, Shard.promote_steps E.bloom s.shard now limit, fun e he => ?_, ?_⟩
    · obtain ⟨x, hx, rfl⟩ := List.mem_map.1 he
      exact ⟨x, hx, rfl⟩
    · simp [List.filterMap_map, Function.comp_def, Eff.accepted?]
  | reclaim now limit =>
    simp only [step, Option.some.injEq] at h
    subst h
    refine ⟨_, Shard.reclaim_steps E.bloom s.shard now limit, fun e he => ?_, ?_⟩
    · obtain ⟨x, hx, rfl⟩ := List.mem_map.1 he
      exact ⟨x, hx, rfl⟩
    · simp [List.filterMap_map, Function.comp_def, Eff.accepted?]
  | advanceWake x t =>
    simp only [step, Option.some.injEq] at h
    subst h
    exact ⟨[.advance x t], .cons .advance (.nil _), fun e he => List.mem_singleton.1 he,
      by simp [Eff.accepted?]⟩
  | ackZrem d =>
    obtain ⟨l, hl, rfl⟩ := ackZrem_inv h
    refine ⟨[.zrem l], .cons .zrem (.nil _), fun e he => ?_, by simp [Eff.accepted?]⟩
    exact ⟨l, hl, List.mem_singleton.1 he⟩
  | ackHdel d =>
    obtain ⟨l, hl, hd, rfl⟩ := ackHdel_inv h
    refine ⟨[.hdel l.urlId], .cons .hdel (.nil _), fun e he => ?_, by simp [Eff.accepted?]⟩
    exact ⟨l, hl, hd, List.mem_singleton.1 he⟩

theorem step_delivers (h : s.step E op = some s') :
    s'.deliveries = s.deliveries ++ op.delivers E s := by
  cases op with
  | claim now leaseMs =>
    simp only [step, Option.some.injEq] at h
    rw [← h]
    rfl
  | ackZrem d =>
    obtain ⟨l, -, rfl⟩ := ackZrem_inv h
    exact (List.append_nil _).symm
  | ackHdel d =>
    obtain ⟨l, -, -, rfl⟩ := ackHdel_inv h
    exact (List.append_nil _).symm
  | _ =>
    simp only [step, Option.some.injEq] at h
    rw [← h]
    exact (List.append_nil _).symm

theorem step_grows (h : s.step E op = some s') : Grows s s' op := by
  have hdel : s.deliveries <+: s'.deliveries := step_delivers h ▸ List.prefix_append _ _
  cases op with
  | ackZrem d =>
    obtain ⟨l, hl, rfl⟩ := ackZrem_inv h
    exact ⟨hdel, fun x => by simp [or_comm, eq_comm], fun x => by simp⟩
  | ackHdel d =>
    obtain ⟨l, hl, hd, rfl⟩ := ackHdel_inv h
    exact ⟨hdel, fun x => by simp, fun x => by simp [or_comm, eq_comm]⟩
  | _ =>
    simp only [step, Option.some.injEq] at h
    subst h
    exact ⟨hdel, fun x => by simp, fun x => by simp⟩

end Sys

section
variable {s s' : Sys β} {op : Op}

/-- A delivery keeps its place. -/
theorem Grows.delivery (hg : Grows s s' op) {d : Nat} {l : Lease}
    (h : s.deliveries[d]? = some l) : s'.deliveries[d]? = some l := by
  obtain ⟨ds, hds⟩ := hg.deliveries
  rw [← hds, List.getElem?_append_left (List.getElem?_eq_some_iff.1 h).1, h]

theorem Grows.zremed_mono (hg : Grows s s' op) {u : UrlId} (h : s.Zremed u) : s'.Zremed u := by
  obtain ⟨d, hd, l, hl, hu⟩ := h
  exact ⟨d, (hg.zremed d).2 (.inl hd), l, hg.delivery hl, hu⟩

end

end Crawlrs
